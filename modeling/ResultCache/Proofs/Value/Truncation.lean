import ResultCache.Proofs.Cache.Isolation

/-!
# Bytes that end too early

A reader of bytes goes from front to back, so what it has read does not depend on what follows, and
a refusal does not either, unless the bytes ended where more were needed (`Continues`). Every part
of the decoder is such a reader, at every depth; larger depths allow more nesting and change
nothing else.

So bytes that hold rows hold the same rows with anything behind them. Without their last bytes they
hold nothing: what is missing is noticed at the place where the bytes end, however deep inside a
value that is, and never makes a shorter list of rows (`truncated_rows_refused`).
-/
namespace ResultCache

/-- Whether the bytes ended where more of them were needed. -/
inductive DecodeFault.AtEnd : DecodeFault → Prop where
  | truncated : AtEnd .truncated
  | truncatedText : AtEnd .truncatedText

namespace Bytes

/-- A reader: a result and the bytes that are left, or what is wrong with the bytes. -/
abbrev Reader (α : Type) := List UInt8 → Except DecodeFault (α × List UInt8)

/-- What the reader `read` makes of some bytes, `read'` makes of them with more bytes behind them,
unless `read` comes to the end of its bytes. -/
structure Continues {α : Type} (read read' : Reader α) : Prop where
  ok : ∀ {bs rest : List UInt8} {a : α}, read bs = .ok (a, rest) →
    ∀ more, read' (bs ++ more) = .ok (a, rest ++ more)
  error : ∀ {bs : List UInt8} {e : DecodeFault}, read bs = .error e → ¬ e.AtEnd →
    ∀ more, read' (bs ++ more) = .error e

variable {α β : Type}

theorem continues_ok (a : α) : Continues (fun bs => .ok (a, bs)) (fun bs => .ok (a, bs)) where
  ok h _ := by cases h; rfl
  error h := nomatch h

theorem continues_error (e : DecodeFault) :
    Continues (α := α) (fun _ => .error e) (fun _ => .error e) where
  ok h := nomatch h
  error h _ _ := by cases h; rfl

/-- One reader after the other. -/
theorem Continues.bind {read read' : Reader α} {next next' : α → Reader β}
    (hread : Continues read read') (hnext : ∀ a, Continues (next a) (next' a)) :
    Continues (fun bs => read bs >>= fun p => next p.1 p.2)
      (fun bs => read' bs >>= fun p => next' p.1 p.2) where
  ok := by
    intro bs rest b h more
    cases hr : read bs with
    | error e => rw [hr] at h; cases h
    | ok p =>
      rw [hr] at h
      simp only [hread.ok hr more]
      exact (hnext p.1).ok h more
  error := by
    intro bs e h he more
    cases hr : read bs with
    | error e' =>
      rw [hr] at h
      cases h
      simp only [hread.error hr he more]
      rfl
    | ok p =>
      rw [hr] at h
      simp only [hread.ok hr more]
      exact (hnext p.1).error h he more

/-- A byte, and what is read after it. -/
theorem continues_byte {next : UInt8 → Reader α} (hnext : ∀ b, Continues (next b) (next b)) :
    let read : Reader α := fun
      | [] => .error .truncated
      | b :: bs => next b bs
    Continues read read := by
  refine ⟨?_, ?_⟩
  · intro bs rest a h more
    cases bs with
    | nil => cases h
    | cons b bs => exact (hnext b).ok h more
  · intro bs e h he more
    cases bs with
    | nil => cases h; exact absurd .truncated he
    | cons b bs => exact (hnext b).error h he more

theorem continues_takeNat (n : Nat) : Continues (takeNat n) (takeNat n) := by
  induction n with
  | zero => exact continues_ok 0
  | succ n ih =>
    have heq : takeNat (n + 1) = fun
        | [] => .error .truncated
        | b :: bs => takeNat n bs >>= fun p => .ok (b.toNat + 256 * p.1, p.2) := by
      funext bs
      cases bs <;> rfl
    rw [heq]
    exact continues_byte fun b => ih.bind fun v => continues_ok (b.toNat + 256 * v)

/-- A block of `n` bytes, and what is read with it. -/
theorem continues_block {short : DecodeFault} (hshort : short.AtEnd) (n : Nat)
    {next : List UInt8 → Reader α} (hnext : ∀ block, Continues (next block) (next block)) :
    let read : Reader α := fun bs =>
      if bs.length < n then .error short else next (bs.take n) (bs.drop n)
    Continues read read := by
  intro read
  have hlong : ∀ {bs : List UInt8}, n ≤ bs.length → ∀ more,
      read (bs ++ more) = next (bs.take n) (bs.drop n ++ more) := by
    intro bs hn more
    have hn' : ¬ (bs ++ more).length < n := by rw [List.length_append]; omega
    simp only [read, if_neg hn', List.take_append_of_le_length hn,
      List.drop_append_of_le_length hn]
  refine ⟨?_, ?_⟩
  · intro bs rest a h more
    by_cases hn : bs.length < n
    · simp only [read, if_pos hn] at h
      cases h
    · simp only [read, if_neg hn] at h
      rw [hlong (by omega)]
      exact (hnext (bs.take n)).ok h more
  · intro bs e h he more
    by_cases hn : bs.length < n
    · simp only [read, if_pos hn] at h
      cases h
      exact absurd hshort he
    · simp only [read, if_neg hn] at h
      rw [hlong (by omega)]
      exact (hnext (bs.take n)).error h he more

theorem continues_takeBytes : Continues takeBytes takeBytes := by
  have hblock := fun n => continues_block .truncated n continues_ok
  exact (continues_takeNat 8).bind hblock

/-- The text that a block of bytes holds. -/
def textOf (block : List UInt8) : Reader String := fun rest =>
  ((Text.decodeUtf8 block).mapError .notText).map fun s => (s, rest)

theorem takeText_eq : takeText = fun bs => takeNat 8 bs >>= fun p =>
    if p.2.length < p.1 then .error .truncatedText else textOf (p.2.take p.1) (p.2.drop p.1) := by
  funext bs
  rw [takeText]
  congr 1
  funext p
  obtain ⟨n, bs⟩ := p
  dsimp only [textOf]
  cases Text.decodeUtf8 (bs.take n) <;> rfl

theorem continues_textOf (block : List UInt8) : Continues (textOf block) (textOf block) := by
  unfold textOf
  cases Text.decodeUtf8 block with
  | ok s => exact continues_ok s
  | error e => exact continues_error (.notText e)

theorem continues_takeText : Continues takeText takeText := by
  have hblock := fun n => continues_block .truncatedText n continues_textOf
  rw [takeText_eq]
  exact (continues_takeNat 8).bind hblock

end Bytes

namespace Frozen

open Bytes

variable {α : Type}

theorem continues_takeMany {read read' : Reader α} (hread : Continues read read') (n : Nat) :
    Continues (takeMany read n) (takeMany read' n) := by
  induction n with
  | zero => exact continues_ok []
  | succ n ih => exact hread.bind fun a => ih.bind fun as => continues_ok (a :: as)

theorem continues_takeProp {read read' : Reader Frozen} (hread : Continues read read') :
    Continues (takeProp read) (takeProp read') :=
  continues_takeText.bind fun name => hread.bind fun f => continues_ok (name, f)

/-- A truth value in one byte. -/
def takeBool : Reader Frozen
  | [] => .error .truncated
  | b :: bs =>
    if b = 0 then .ok (.bool false, bs)
    else if b = 1 then .ok (.bool true, bs)
    else .error (.notBool b)

/-- The content of a value whose kind is known, where `read` reads the values inside it. -/
def takeContent (read : Reader Frozen) : Nat → Reader Frozen
  | 0 => fun bs => .ok (.null, bs)
  | 1 => takeBool
  | 2 => fun bs => takeNat 8 bs >>= fun p => .ok (.int (UInt64.ofNat p.1).toInt64, p.2)
  | 3 => fun bs => takeNat 8 bs >>= fun p => .ok (.float (UInt64.ofNat p.1), p.2)
  | 4 => fun bs => takeText bs >>= fun p => .ok (.text p.1, p.2)
  | 5 => fun bs => takeBytes bs >>= fun p => .ok (.bytes p.1, p.2)
  | 6 => fun bs => takeNat 8 bs >>= fun p =>
    takeMany read p.1 p.2 >>= fun q => .ok (.list q.1, q.2)
  | 7 => fun bs => takeNat 8 bs >>= fun p =>
    takeMany (takeProp read) p.1 p.2 >>= fun q => .ok (.object (NameMap.ofList q.1).entries, q.2)
  | k => fun _ => .error (.unknownKind k)

/-- A value is its kind and then its content. -/
theorem take_succ (depth : Nat) :
    take (depth + 1) = fun bs => takeNat 4 bs >>= fun p => takeContent (take depth) p.1 p.2 := by
  funext bs
  rw [take]
  congr 1
  funext p
  obtain ⟨_ | _ | _ | _ | _ | _ | _ | _ | kind, bs⟩ := p
  case succ.zero => cases bs <;> rfl
  all_goals rfl

theorem continues_takeBool : Continues takeBool takeBool := by
  have hbyte : ∀ b : UInt8,
      let next : Reader Frozen := fun bs =>
        if b = 0 then .ok (.bool false, bs)
        else if b = 1 then .ok (.bool true, bs)
        else .error (.notBool b)
      Continues next next := by
    intro b next
    by_cases h0 : b = 0
    · simp only [next, if_pos h0]
      exact continues_ok (bool false)
    · by_cases h1 : b = 1
      · simp only [next, if_neg h0, if_pos h1]
        exact continues_ok (bool true)
      · simp only [next, if_neg h0, if_neg h1]
        exact continues_error (.notBool b)
  have heq : takeBool = fun
      | [] => .error .truncated
      | b :: bs =>
        if b = 0 then .ok (.bool false, bs)
        else if b = 1 then .ok (.bool true, bs)
        else .error (.notBool b) := by
    funext bs
    cases bs <;> rfl
  rw [heq]
  exact continues_byte hbyte

theorem continues_takeContent {read read' : Reader Frozen} (hread : Continues read read')
    (kind : Nat) : Continues (takeContent read kind) (takeContent read' kind) := by
  match kind with
  | 0 => exact continues_ok null
  | 1 => exact continues_takeBool
  | 2 => exact (continues_takeNat 8).bind fun n => continues_ok (int (UInt64.ofNat n).toInt64)
  | 3 => exact (continues_takeNat 8).bind fun n => continues_ok (float (UInt64.ofNat n))
  | 4 => exact continues_takeText.bind fun s => continues_ok (text s)
  | 5 => exact continues_takeBytes.bind fun bs => continues_ok (bytes bs)
  | 6 =>
    exact (continues_takeNat 8).bind fun n =>
      (continues_takeMany hread n).bind fun fs => continues_ok (list fs)
  | 7 =>
    exact (continues_takeNat 8).bind fun n =>
      (continues_takeMany (continues_takeProp hread) n).bind fun ps =>
        continues_ok (object (NameMap.ofList ps).entries)
  | k + 8 => exact continues_error (.unknownKind (k + 8))

/-- A deeper reader reads the same: where the other gives up, it says that bytes are missing. -/
theorem continues_take {depth depth' : Nat} (hd : depth ≤ depth') :
    Continues (take depth) (take depth') := by
  induction depth generalizing depth' with
  | zero =>
    refine ⟨?_, ?_⟩
    · intro bs rest f h
      cases h
    · intro bs e h he
      cases h
      exact absurd .truncated he
  | succ depth ih =>
    obtain ⟨depth', rfl⟩ : ∃ d, depth' = d + 1 := ⟨depth' - 1, by omega⟩
    have hin : Continues (take depth) (take depth') := ih (by omega)
    rw [take_succ, take_succ]
    exact (continues_takeNat 4).bind fun kind => continues_takeContent hin kind

/-- Rows are read from the front of the bytes. -/
theorem continues_takeRows : Continues takeRows takeRows := by
  have hrows : ∀ {n m : Nat}, n ≤ m → Continues
      (fun bs => takeNat 8 bs >>= fun p => takeMany (take (n + 1)) p.1 p.2)
      (fun bs => takeNat 8 bs >>= fun p => takeMany (take (m + 1)) p.1 p.2) := by
    intro n m hnm
    have hin : Continues (take (n + 1)) (take (m + 1)) := continues_take (by omega)
    exact (continues_takeNat 8).bind fun n => continues_takeMany hin n
  have hle : ∀ bs more : List UInt8, bs.length ≤ (bs ++ more).length := by simp
  exact ⟨fun h more => (hrows (hle _ more)).ok h more,
    fun h he more => (hrows (hle _ more)).error h he more⟩

/-- Bytes that hold rows hold no rows without their last bytes. -/
theorem decodeRows_of_prefix {bs p : List UInt8} {fs : List Frozen}
    (hbs : takeRows bs = .ok (fs, [])) (hp : p <+: bs) (hne : p ≠ bs) :
    ∃ why, why.AtEnd ∧ decodeRows p = .error why := by
  obtain ⟨more, rfl⟩ := hp
  have hmore : more ≠ [] := fun he => hne (by rw [he, List.append_nil])
  cases hread : takeRows p with
  | ok r =>
    -- what was read from `p` would leave `more` unread
    have hrest := continues_takeRows.ok hread more
    rw [hbs] at hrest
    have hnil : r.2 ++ more = [] := congrArg Prod.snd (Except.ok.inj hrest.symm)
    exact absurd (List.append_eq_nil_iff.1 hnil).2 hmore
  | error why =>
    refine ⟨why, ?_, by rw [decodeRows, hread]; rfl⟩
    refine Classical.byContradiction fun hwhy => ?_
    have hfail := continues_takeRows.error hread hwhy more
    rw [hbs] at hfail
    cases hfail

end Frozen

namespace Copying

variable {k : Key} {bs : List UInt8} {s : Unit × Store}

/-- A read of bytes that hold no rows fails and leaves everything as it was. -/
theorem Keeps.get_error (hs : Keeps k bs s) {why : DecodeFault}
    (hwhy : Frozen.decodeRows bs = .error why) (now : Instant) (h : Heap) :
    (ops Store.ops).get now h k s = (.error (.configuration (.undecodable s.2.id why)), h, s) := by
  simp [ops, Store.ops, Store.get, hs.refused, hs.stored, restoreBelow, restored, hwhy]

/-- A copying layer over a store into which bytes were put for a key. -/
def holding (id : String) (S : Entries) (k : Key) (bs : List UInt8) : Unit × Store :=
  ((), (Store.put k (.encoded bs) { Store.perpetual id with entries := S }).2)

theorem keeps_holding (id : String) (S : Entries) (k : Key) (bs : List UInt8) :
    Keeps k bs (holding id S k bs) := ⟨rfl, Table.get?_insert_self S k _⟩

/-- Rows whose bytes were cut off are not read as fewer rows. `vs` are any rows, whose objects lie
in `K`, may be shared and may lead back to one another, and their bytes have been put into the store
below a copying layer. If they are cut off anywhere, the read fails, for want of bytes; with any
bytes behind them, they give the same rows as without. So the bytes of rows that look different are
never a beginning of one another. -/
theorem truncated_rows_refused {h : Heap} {K : ObjId → Prop} (hK : h.Region K) {vs : List Value}
    (hvs : ∀ v ∈ vs, v.Within K) (hlen : vs.length < 2 ^ 64) (id : String) (S : Entries) (k : Key)
    (now : Instant) (g : Heap) :
    (∀ p, p <+: h.encodeRows vs → p ≠ h.encodeRows vs →
      ∃ why : DecodeFault, why.AtEnd ∧ (ops Store.ops).get now g k (holding id S k p) =
        (.error (.configuration (.undecodable id why)), g, holding id S k p)) ∧
    (∃ ws g', ws.map g'.freeze = vs.map h.freeze ∧ ∀ more,
      (ops Store.ops).get now g k (holding id S k (h.encodeRows vs ++ more)) =
        (.ok (some (.rows ws)), g', holding id S k (h.encodeRows vs ++ more))) ∧
    ∀ {h' : Heap} {K' : ObjId → Prop} {vs' : List Value}, h'.Region K' →
      (∀ v ∈ vs', v.Within K') → vs'.length < 2 ^ 64 →
      vs.map h.freeze ≠ vs'.map h'.freeze → ¬ h.encodeRows vs <+: h'.encodeRows vs' := by
  have hregular := h.freezeRows_regular hK hvs
  have hread : ∀ more,
      Frozen.takeRows (h.encodeRows vs ++ more) = .ok (vs.map h.freeze, more) := by
    intro more
    rw [h.encodeRows_eq]
    exact Frozen.takeRows_encodeRows (by simpa using hlen) hregular more
  have hdecode : ∀ more, Frozen.decodeRows (h.encodeRows vs ++ more) = .ok (vs.map h.freeze) := by
    intro more
    rw [Frozen.decodeRows, hread more]
    rfl
  refine ⟨fun p hp hne => ?_, ?_, ?_⟩
  · have hwhole := hread []
    rw [List.append_nil] at hwhole
    obtain ⟨why, hend, hwhy⟩ := Frozen.decodeRows_of_prefix hwhole hp hne
    exact ⟨why, hend, (keeps_holding id S k p).get_error hwhy now g⟩
  · have hmade := Frozen.made_thawAll hregular g
    exact ⟨_, _, hmade.freeze, fun more => (keeps_holding id S k _).get_eq (hdecode more) now g⟩
  · rintro h' K' vs' hK' hvs' hlen' hne ⟨more, hmore⟩
    have hother := h'.decodeRows_encodeRows hK' hvs' hlen'
    rw [← hmore, hdecode more] at hother
    exact hne (Except.ok.inj hother)

/-- An object that leads back to itself takes 42 bytes: 41 of them are refused, 43 are read like 42,
and they are no beginning of the bytes of no rows at all. -/
theorem truncated_rows_refused_loopHeap :
    let bs := loopHeap.encodeRows [.object ⟨0⟩]
    let read (bs : List UInt8) := (ops Store.ops).get 0 .empty .empty (holding "c" .empty .empty bs)
    bs.length = 42 ∧
    (∃ why : DecodeFault, why.AtEnd ∧ read (bs.take 41) =
      (.error (.configuration (.undecodable "c" why)), .empty,
        holding "c" .empty .empty (bs.take 41))) ∧
    (∃ ws g', ws.map g'.freeze = [.object [("me", .object [])]] ∧ read (bs ++ [0]) =
      (.ok (some (.rows ws)), g', holding "c" .empty .empty (bs ++ [0]))) ∧
    ¬ bs <+: loopHeap.encodeRows [] := by
  intro bs read
  have hfreeze : [Value.object ⟨0⟩].map loopHeap.freeze = [.object [("me", .object [])]] := by
    rw [List.map_singleton, freeze_loopHeap]
  have hlength : bs.length = 42 := by
    simp only [bs, Heap.encodeRows_eq, hfreeze]
    decide
  have hvs : ∀ v ∈ [Value.object ⟨0⟩], v.Within fun o => o = ⟨0⟩ := by simpa using .object rfl
  obtain ⟨hcut, ⟨ws, g', hws, hmore⟩, hother⟩ :=
    truncated_rows_refused region_loopHeap hvs (by decide) "c" .empty .empty 0 .empty
  have hshorter : bs.take 41 ≠ bs := fun he => by
    have hlen := congrArg List.length he
    rw [List.length_take, hlength] at hlen
    omega
  refine ⟨hlength, hcut _ (List.take_prefix 41 bs) hshorter,
    ⟨ws, g', hws.trans hfreeze, hmore [0]⟩, ?_⟩
  exact hother loopHeap.region_empty (by simp) (by simp) (by simp [hfreeze])

end Copying
end ResultCache
