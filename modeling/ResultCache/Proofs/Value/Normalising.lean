import Mathlib.Algebra.Order.BigOperators.Group.List
import Mathlib.Algebra.Order.Group.Nat
import Mathlib.Algebra.Ring.Nat
import Mathlib.Data.List.Induction
import ResultCache.Proofs.Value.Spelling

/-!
# Decoding any bytes

What is decoded from bytes has the properties of each object in order, in whatever order the bytes
list them and however often. Encoding it again gives the same rows in no more bytes, and in the same
bytes exactly if the names were in strictly increasing order in every object
(`decoding_normalises`).

Nothing gets longer because a map weighs no more than the pairs that it is made of, whatever a pair
weighs (`NameMap.sum_ofList_le`).
-/
namespace ResultCache

namespace NameMap

variable {α : Type}

theorem entries_ofList_concat (ps : List (String × α)) (p : String × α) :
    (ofList (ps ++ [p])).entries = place p.1 p.2 (ofList ps).entries := by
  rw [ofList, List.foldl_append]
  rfl

theorem mem_of_mem_ofList {ps : List (String × α)} {p : String × α}
    (hp : p ∈ (ofList ps).entries) : p ∈ ps := by
  induction ps using List.reverseRecOn with
  | nil => cases hp
  | append_singleton ps q ih =>
    rw [entries_ofList_concat] at hp
    rcases mem_place hp with hp | hp
    · exact List.mem_append_right _ (List.mem_singleton.2 hp)
    · exact List.mem_append_left _ (ih hp)

/-- The value under a name is the last one that was listed under it. -/
theorem find_ofList (ps : List (String × α)) (name : String) :
    find name (ofList ps).entries = find name ps.reverse := by
  induction ps using List.reverseRecOn with
  | nil => rfl
  | append_singleton ps p ih =>
    rw [entries_ofList_concat, List.reverse_concat, find]
    by_cases hp : p.1 = name
    · rw [if_pos hp, ← hp, find_place_self]
    · rw [if_neg hp, find_place_of_ne _ _ (Ne.symm hp), ih]

theorem sum_place_le (weight : String × α → Nat) (name : String) (a : α)
    (l : List (String × α)) :
    ((place name a l).map weight).sum ≤ weight (name, a) + (l.map weight).sum := by
  induction l with
  | nil => simp [place]
  | cons q rest ih =>
    obtain ⟨m, b⟩ := q
    rw [place]
    split
    · simp
    · split
      · simp only [List.map_cons, List.sum_cons]
        omega
      · simp only [List.map_cons, List.sum_cons]
        omega

/-- Whatever pairs weigh, a map weighs no more than the pairs it is made of. -/
theorem sum_ofList_le (weight : String × α → Nat) (ps : List (String × α)) :
    ((ofList ps).entries.map weight).sum ≤ (ps.map weight).sum := by
  induction ps using List.reverseRecOn with
  | nil => exact Nat.le_refl _
  | append_singleton ps p ih =>
    obtain ⟨name, a⟩ := p
    have hplace := sum_place_le weight name a (ofList ps).entries
    simp only [entries_ofList_concat, List.map_append, List.sum_append, List.map_singleton,
      List.sum_singleton]
    omega

theorem length_ofList_le (ps : List (String × α)) : (ofList ps).entries.length ≤ ps.length := by
  have hcount : ∀ l : List (String × α), (l.map fun _ => 1).sum = l.length := by
    intro l
    induction l with
    | nil => rfl
    | cons p l ih => rw [List.map_cons, List.sum_cons, ih, List.length_cons, Nat.add_comm]
  have hle := sum_ofList_le (fun _ => 1) ps
  rwa [hcount, hcount] at hle

end NameMap

namespace Outline

open Bytes

/-- In every object the names of the properties are in strictly increasing order of their bytes. -/
inductive Ordered : Outline → Prop where
  | null : Ordered .null
  | bool (b : Bool) : Ordered (.bool b)
  | int (n : Int64) : Ordered (.int n)
  | float (bits : UInt64) : Ordered (.float bits)
  | text (s : String) : Ordered (.text s)
  | bytes (bs : List UInt8) : Ordered (.bytes bs)
  | list {ls : List Outline} (hls : ∀ l ∈ ls, Ordered l) : Ordered (.list ls)
  | object {props : List (String × Outline)}
      (names : props.Pairwise fun p q => Text.encodeUtf8 p.1 < Text.encodeUtf8 q.1)
      (hprops : ∀ p ∈ props, Ordered p.2) : Ordered (.object props)

/-- What is spelled out decodes to a value that can be encoded. -/
theorem Written.normal_regular {l : Outline} (hl : l.Written) : l.normal.Regular := by
  induction hl with
  | null => exact .null
  | bool b => exact .bool b
  | int n => exact .int n
  | float bits => exact .float bits
  | text hs => exact .text hs
  | bytes hs => exact .bytes hs
  | list hs _ ih =>
    rw [normal, normalAll_eq_map]
    refine .list (by simpa using hs) fun f hf => ?_
    obtain ⟨l, hl, rfl⟩ := List.mem_map.1 hf
    exact ih l hl
  | @object props hs names _ ih =>
    have hlen := NameMap.length_ofList_le (normalProps props)
    rw [normal]
    rw [normalProps_eq_map, List.length_map] at *
    refine .object (by omega) (NameMap.sorted _) ?_ ?_
    · intro p hp
      obtain ⟨q, hq, rfl⟩ := List.mem_map.1 (NameMap.mem_of_mem_ofList hp)
      exact names q hq
    · intro p hp
      obtain ⟨q, hq, rfl⟩ := List.mem_map.1 (NameMap.mem_of_mem_ofList hp)
      exact ih q hq

/-- Putting properties in order, and dropping those that do not count, makes nothing longer. -/
theorem Written.length_encode_normal_le {l : Outline} (hl : l.Written) :
    l.normal.outline.encode.length ≤ l.encode.length := by
  induction hl with
  | @list ls hs _ ih =>
    rw [normal, normalAll_eq_map, Frozen.outline, Frozen.outlineAll_eq_map, encode, encode,
      encodeAll_eq_flatMap, encodeAll_eq_flatMap]
    simp only [List.length_append, length_ofNat, List.length_flatMap, List.map_map]
    exact Nat.add_le_add_left (List.sum_le_sum ih) _
  | @object props hs names _ ih =>
    -- the bytes of a property, once its value is in order
    let weight (p : String × Frozen) : Nat := (encodeProp (p.1, p.2.outline)).length
    have hprop : ∀ p ∈ props, weight (p.1, p.2.normal) ≤ (encodeProp p).length := by
      intro p hp
      simp only [weight, encodeProp, List.length_append]
      exact Nat.add_le_add_left (ih p hp) _
    have hsum : ((NameMap.ofList (normalProps props)).entries.map weight).sum ≤
        (props.map fun p => (encodeProp p).length).sum :=
      calc ((NameMap.ofList (normalProps props)).entries.map weight).sum
          ≤ ((normalProps props).map weight).sum := NameMap.sum_ofList_le weight _
        _ = (props.map fun p => weight (p.1, p.2.normal)).sum := by
          rw [normalProps_eq_map, List.map_map]
          rfl
        _ ≤ (props.map fun p => (encodeProp p).length).sum := List.sum_le_sum hprop
    rw [normal, Frozen.outline, Frozen.outlineProps_eq_map, encode, encode,
      encodeProps_eq_flatMap, encodeProps_eq_flatMap]
    simp only [List.length_append, length_ofNat, List.length_flatMap, List.map_map]
    exact Nat.add_le_add_left hsum _
  | _ => exact Nat.le_refl _

/-- A value with its properties in order is what it is put in order to. -/
theorem Ordered.outline_normal {l : Outline} (hl : l.Ordered) : l.normal.outline = l := by
  induction hl with
  | @list ls _ ih =>
    rw [normal, normalAll_eq_map, Frozen.outline, Frozen.outlineAll_eq_map, List.map_map]
    exact congrArg _ ((List.map_congr_left ih).trans (List.map_id' ls))
  | @object props names _ ih =>
    have hsorted : (normalProps props).Pairwise fun p q => p.1 < q.1 := by
      rw [normalProps_eq_map]
      exact List.pairwise_map.2 (names.imp Text.encodeUtf8_lt_iff.1)
    rw [normal, NameMap.entries_ofList hsorted, normalProps_eq_map, Frozen.outline,
      Frozen.outlineProps_eq_map, List.map_map]
    have hprop : ∀ p ∈ props, (p.1, p.2.normal.outline) = p := fun p hp => by rw [ih p hp]
    exact congrArg _ ((List.map_congr_left hprop).trans (List.map_id' props))
  | _ => rfl

end Outline

namespace Frozen

open Outline

theorem Regular.outline_ordered {f : Frozen} (hf : f.Regular) : f.outline.Ordered := by
  induction hf with
  | null => exact .null
  | bool b => exact .bool b
  | int n => exact .int n
  | float bits => exact .float bits
  | text hs => exact .text _
  | bytes hs => exact .bytes _
  | list hs _ ih =>
    rw [outline, outlineAll_eq_map]
    exact .list (List.forall_mem_map.2 ih)
  | object hs sorted names _ ih =>
    rw [outline, outlineProps_eq_map]
    exact .object (List.pairwise_map.2 (sorted.imp Text.encodeUtf8_lt_iff.2))
      (List.forall_mem_map.2 ih)

end Frozen

namespace Outline

open Bytes

variable {ls : List Outline} {p : List UInt8}

theorem SpelledBy.regular (hls : SpelledBy ls p) : ∀ f ∈ ls.map normal, f.Regular :=
  List.forall_mem_map.2 fun l hl => (hls.written l hl).normal_regular

theorem SpelledBy.length_encodeRows_le (hls : SpelledBy ls p) :
    (Frozen.encodeRows (ls.map normal)).length ≤ p.length := by
  rw [hls.bytes, Frozen.encodeRows, Frozen.outlineAll_eq_map, encodeAll_eq_flatMap,
    encodeAll_eq_flatMap]
  simp only [List.length_append, length_ofNat, List.length_flatMap, List.map_map]
  exact Nat.add_le_add_left
    (List.sum_le_sum fun l hl => (hls.written l hl).length_encode_normal_le) _

/-- A spelling is the one of the encoder exactly if it is in order. -/
theorem SpelledBy.encodeRows_eq_iff (hls : SpelledBy ls p) :
    Frozen.encodeRows (ls.map normal) = p ↔ ∀ l ∈ ls, l.Ordered := by
  have hspelled := Frozen.spelledBy_encodeRows (by simpa using hls.length) hls.regular
  rw [List.map_map] at hspelled
  constructor
  · intro hp l hl
    rw [hp] at hspelled
    rw [← hls.unique hspelled] at hl
    obtain ⟨m, hm, rfl⟩ := List.mem_map.1 hl
    exact (hls.written m hm).normal_regular.outline_ordered
  · intro hl
    have hsame : ls.map (Frozen.outline ∘ normal) = ls :=
      (List.map_congr_left fun l hm => (hl l hm).outline_normal).trans (List.map_id' ls)
    rw [hspelled.bytes, hsame, hls.bytes]

/-- Of the properties under one name the last one is the property of the object. -/
theorem find_normal (props : List (String × Outline)) (name : String) :
    NameMap.find name (NameMap.ofList (normalProps props)).entries =
      (NameMap.find name props.reverse).map normal := by
  rw [NameMap.find_ofList, normalProps_eq_map, ← List.map_reverse]
  induction props.reverse with
  | nil => rfl
  | cons p ps ih =>
    rw [List.map_cons, NameMap.find, NameMap.find, ih]
    split <;> rfl

end Outline

theorem Frozen.regular_of_decodeRows {bs : List UInt8} {fs : List Frozen}
    (h : decodeRows bs = .ok fs) : ∀ f ∈ fs, f.Regular := by
  obtain ⟨rest, hread⟩ := decodeRows_eq_ok h
  obtain ⟨p, ls, -, hls, rfl⟩ := exists_spelledBy hread
  exact hls.regular

namespace Copying

open Outline

/-- Reading bytes and storing what was read puts the bytes in order. `b` are any bytes that a
copying layer reads as rows `vs`; `p` are those that it looked at, and they spell out `ls` and
nothing else.
The rows look like `ls` with the properties of each object in order, where of a repeated name the
last property counts. They are stored in no more bytes than `p`, from which the same rows are read,
and in `p` itself exactly if all objects in `p` list their names in strictly increasing order. -/
theorem decoding_normalises {id : String} {g g' : Heap} {b : List UInt8} {vs : List Value}
    (hb : restored id g (some (.encoded b)) = (.ok (some (.rows vs)), g')) :
    ∃ p rest ls, b = p ++ rest ∧ Frozen.takeRows b = .ok (vs.map g'.freeze, rest) ∧
      (∀ ms, SpelledBy ms p ↔ ms = ls) ∧ vs.map g'.freeze = ls.map normal ∧
      (∀ (props : List (String × Outline)), ∃ qs, (Outline.object props).normal = .object qs ∧
        ∀ name, NameMap.find name qs = (NameMap.find name props.reverse).map normal) ∧
      stored id g' (.rows vs) = .ok (.encoded (g'.encodeRows vs)) ∧
      (∀ i, ∃ ws i', restored id i (some (.encoded (g'.encodeRows vs))) =
        (.ok (some (.rows ws)), i') ∧ ws.map i'.freeze = vs.map g'.freeze) ∧
      (g'.encodeRows vs).length ≤ p.length ∧
      (g'.encodeRows vs = p ↔ ∀ l ∈ ls, l.Ordered) := by
  obtain ⟨fs, hfs, hmake⟩ : ∃ fs, Frozen.decodeRows b = .ok fs ∧
      (vs, g') = Frozen.thawAll fs g := by
    rw [restored] at hb
    split at hb
    · rename_i fs hfs
      cases hb
      exact ⟨fs, hfs, rfl⟩
    · cases hb
  obtain ⟨rest, hread⟩ := Frozen.decodeRows_eq_ok hfs
  obtain ⟨p, ls, rfl, hls, rfl⟩ := Frozen.exists_spelledBy hread
  have hmade := Frozen.made_thawAll hls.regular g
  rw [← hmake] at hmade
  have hfreeze : vs.map g'.freeze = ls.map normal := hmade.freeze
  have hencode : g'.encodeRows vs = Frozen.encodeRows (ls.map normal) := by
    rw [g'.encodeRows_eq, hfreeze]
  have hdecode : Frozen.decodeRows (g'.encodeRows vs) = .ok (ls.map normal) := by
    rw [hencode]
    exact Frozen.decodeRows_encodeRows (by simpa using hls.length) hls.regular
  refine ⟨p, rest, ls, rfl, ?_, fun ms => ⟨hls.unique, ?_⟩, hfreeze, fun props => ?_, rfl,
    fun i => ?_, ?_, ?_⟩
  · rw [hread, hfreeze]
  · rintro rfl
    exact hls
  · exact ⟨_, by rw [normal], find_normal props⟩
  · refine ⟨(Frozen.thawAll (ls.map normal) i).1, (Frozen.thawAll (ls.map normal) i).2, ?_, ?_⟩
    · rw [restored, hdecode]
    · exact (Frozen.made_thawAll hls.regular i).freeze.trans hfreeze.symm
  · rw [hencode]
    exact hls.length_encodeRows_le
  · rw [hencode]
    exact hls.encodeRows_eq_iff

/-- Bytes that list the properties `b`, `a` and once more `b` of one object, with a byte behind
them, are read as an object of two properties with the second `b`. Its own bytes are others. -/
theorem decoding_normalises_repeatedName :
    let p := Bytes.ofNat 8 1 ++ Outline.encode
      (.object [("b", .null), ("a", .bool true), ("b", .bool false)])
    ∃ vs g', restored "c" .empty (some (.encoded (p ++ [7]))) = (.ok (some (.rows vs)), g') ∧
      vs.map g'.freeze = [.object [("a", .bool true), ("b", .bool false)]] ∧
      (g'.encodeRows vs).length ≤ p.length ∧ g'.encodeRows vs ≠ p := by
  intro p
  have hread : Frozen.takeRows (p ++ [7]) =
      .ok ([.object [("a", .bool true), ("b", .bool false)]], [7]) := rfl
  obtain ⟨vs, g', hr⟩ : ∃ vs g', restored "c" .empty (some (.encoded (p ++ [7]))) =
      (.ok (some (.rows vs)), g') := by
    simp only [restored, Frozen.decodeRows, hread]
    exact ⟨_, _, rfl⟩
  obtain ⟨q, rest, ls, hq, hrows, hunique, -, -, -, -, hle, hiff⟩ := decoding_normalises hr
  rw [hread] at hrows
  obtain ⟨hvs, rfl⟩ := Prod.mk.inj (Except.ok.inj hrows)
  obtain rfl : p = q := List.append_cancel_right hq
  refine ⟨vs, g', hr, hvs.symm, hle, fun hsame => ?_⟩
  have hspelled : SpelledBy [.object [("b", .null), ("a", .bool true), ("b", .bool false)]] p := by
    refine ⟨by decide, ?_, rfl⟩
    refine List.forall_mem_singleton.2 (.object (by decide) (by decide) ?_)
    simp [Written.null, Written.bool]
  have hordered := hiff.1 hsame
  rw [← (hunique _).1 hspelled] at hordered
  cases hordered _ List.mem_cons_self with | object names _ =>
  exact absurd (List.rel_of_pairwise_cons names List.mem_cons_self) (by decide)

end Copying

end ResultCache
