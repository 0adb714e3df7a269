import ResultCache.Proofs.Cache.ConfiguredSize

/-!
# A locking layer makes no difference to polite callers

Callers are polite if they put or remove a key that they found nothing for before they read it again
(`CacheCall.Polite`). Then no read of a locked key waits, and a cache under a locking layer returns
what it returns without one (`Gate.answers_of_polite`).

So building a cache with locks or without makes no difference to polite callers as long as the locking
layer is all that is different (`Cache.answers_of_locks`). That takes two conditions, because the
properties are offered once more through the locking layer: a size or an interval that is configured
beside a property of the same name has the same value there. Without that the property takes effect
in the cache that locks and the configured value in the other (`Cache.locks_change_answers`).
-/
namespace ResultCache

namespace CacheCall

variable {σ : Type} (B : CacheOps σ) (s : σ)

/-- A read found nothing for the key, and it was neither put nor removed since. -/
def Awaited : List CacheCall → Key → Prop
  | [], _ => False
  | .get now h j :: past, k =>
    (j = k ∧ (B.get now h j (after B s past)).1 = .ok none) ∨ Awaited past k
  | .put _ _ j _ :: past, k => j ≠ k ∧ Awaited past k
  | .remove _ _ j :: past, k => j ≠ k ∧ Awaited past k
  | .clear _ :: past, k => Awaited past k
  | .size _ :: past, k => Awaited past k

/-- No key is read while it is awaited. -/
def Polite : List CacheCall → Prop
  | [] => True
  | .get _ _ k :: past => ¬ Awaited B s past k ∧ Polite past
  | _ :: past => Polite past

variable {B s}

theorem Polite.tail {c : CacheCall} {past : List CacheCall} (hpast : Polite B s (c :: past)) :
    Polite B s past := by
  cases c with
  | get now h k => exact hpast.2
  | _ => exact hpast

end CacheCall

namespace Cache

variable {ls : List Layer} {s : Stack ls} {past : List CacheCall}

theorem awaited_ops {k : Key} :
    CacheCall.Awaited ops ⟨ls, s⟩ past k ↔ CacheCall.Awaited (stackOps ls) s past k := by
  induction past with
  | nil => rfl
  | cons c past ih =>
    cases c with
    | put now h j e => exact and_congr_right fun _ => ih
    | get now h j =>
      rw [CacheCall.Awaited, CacheCall.Awaited, after_ops]
      exact or_congr Iff.rfl ih
    | remove now h j => exact and_congr_right fun _ => ih
    | clear now => exact ih
    | size now => exact ih

theorem polite_ops :
    CacheCall.Polite ops ⟨ls, s⟩ past ↔ CacheCall.Polite (stackOps ls) s past := by
  induction past with
  | nil => rfl
  | cons c past ih =>
    cases c with
    | get now h j => exact and_congr (not_congr awaited_ops) ih
    | _ => exact ih

end Cache

namespace Gate

variable {σ : Type} {B : CacheOps σ}

/-- Reads of keys that are not locked return what the cache below returns, as all other calls do. -/
theorem run_eq {c : CacheCall} {p : Gate × σ} (hc : ∀ now h k, c = .get now h k → k ∉ p.1.held) :
    (c.run (ops B) p).1 = (c.run B p.2).1 ∧ (c.run (ops B) p).2.2 = (c.run B p.2).2 := by
  cases c with
  | get now h k =>
    have hfree := hc now h k rfl
    simp only [CacheCall.run, ops]
    rw [get, if_neg hfree]
    rcases B.get now h k p.2 with ⟨_ | _ | _, h', under⟩ <;> exact ⟨rfl, rfl⟩
  | _ => exact ⟨rfl, rfl⟩

/-- A key is locked after a read if it was before or the read found nothing for it. -/
theorem mem_held_get_iff {now : Instant} {h : Heap} {k j : Key} {p : Gate × σ} (hk : k ∉ p.1.held) :
    j ∈ (get B now h k p).2.2.1.held ↔
      (k = j ∧ (B.get now h k p.2).1 = .ok none) ∨ j ∈ p.1.held := by
  rw [get, if_neg hk]
  rcases B.get now h k p.2 with ⟨_ | _ | _, h', under⟩ <;> simp [eq_comm]

/-- While the locked keys are the awaited ones, no polite read waits. -/
theorem free_of_polite {c : CacheCall} {s : σ} {past : List CacheCall} {p : Gate × σ}
    (hheld : ∀ k, k ∈ p.1.held ↔ CacheCall.Awaited B s past k)
    (hpast : CacheCall.Polite B s (c :: past)) :
    ∀ now h k, c = .get now h k → k ∉ p.1.held := by
  rintro now h k rfl
  exact (not_congr (hheld k)).2 hpast.1

/-- As long as callers are polite, the cache below is as it would be without locks, and the locked
keys are the awaited ones. -/
theorem after_of_polite {g : Gate} (hg : g.held = []) {s : σ} {past : List CacheCall}
    (hpast : CacheCall.Polite B s past) :
    (CacheCall.after (ops B) (g, s) past).2 = CacheCall.after B s past ∧
      ∀ k, k ∈ (CacheCall.after (ops B) (g, s) past).1.held ↔ CacheCall.Awaited B s past k := by
  induction past with
  | nil => simp [CacheCall.after, CacheCall.Awaited, hg]
  | cons c past ih =>
    obtain ⟨hbelow, hheld⟩ := ih hpast.tail
    have hfree := free_of_polite hheld hpast
    constructor
    · rw [CacheCall.after, (run_eq hfree).2, hbelow, CacheCall.after]
    · intro j
      cases c with
      | put now h k e =>
        refine (mem_held_unlock _ k j).trans ?_
        rw [hheld j, CacheCall.Awaited, and_comm, ne_comm]
      | get now h k =>
        refine (mem_held_get_iff (hfree now h k rfl)).trans ?_
        rw [hheld j, hbelow, CacheCall.Awaited]
      | remove now h k =>
        refine (mem_held_unlock _ k j).trans ?_
        rw [hheld j, CacheCall.Awaited, and_comm, ne_comm]
      | clear now => exact hheld j
      | size now => exact hheld j

/-- Polite callers cannot tell that there is a locking layer. -/
theorem answers_of_polite {g : Gate} (hg : g.held = []) {s : σ} {past : List CacheCall}
    (hpast : CacheCall.Polite B s past) :
    CacheCall.answers (ops B) (g, s) past = CacheCall.answers B s past := by
  induction past with
  | nil => rfl
  | cons c past ih =>
    obtain ⟨hbelow, hheld⟩ := after_of_polite hg hpast.tail
    have hfree := free_of_polite hheld hpast
    rw [CacheCall.answers, (run_eq hfree).1, hbelow, ih hpast.tail, CacheCall.answers]

end Gate

namespace Cache

variable {now : Instant} {r : Registry} {id : String} {config : Config} {c d : Cache}
  {ps : List (String × String)}

/-- Properties that are in place below a locking layer change nothing but its timeout. -/
theorem applyProperties_wrap_gate {g : Gate} (hps : ∀ p ∈ ps, ops.InPlace p.1 p.2 c)
    (hd : applyProperties ps (c.wrap .gate g) = .ok d) :
    ∃ g' : Gate, g'.held = g.held ∧ d = c.wrap .gate g' := by
  induction ps generalizing g with
  | nil =>
    cases hd
    exact ⟨g, rfl, rfl⟩
  | cons p ps ih =>
    obtain ⟨b, e, he, hd⟩ := applyProperties_cons.1 hd
    obtain ⟨g₁, hheld, rfl⟩ : ∃ g₁ : Gate, g₁.held = g.held ∧ e = c.wrap .gate g₁ := by
      obtain ⟨⟨g₁, under⟩, ht, rfl⟩ := configure_eq_ok.1 he
      rcases Layer.configure_eq_ok.1 ht with ⟨-, ⟨n, -, hset⟩, hunder, -⟩ | ⟨-, hlayer, ht⟩
      · cases hset
        cases hunder
        exact ⟨{ g with timeout := some n }, rfl, rfl⟩
      · cases hlayer
        obtain ⟨b', hb'⟩ := inPlace_iff.1 (hps p List.mem_cons_self)
        cases hb'.symm.trans ht
        exact ⟨g, rfl, rfl⟩
    obtain ⟨g₂, hg₂, rfl⟩ := ih (fun q hq => hps q (List.mem_cons_of_mem _ hq)) hd
    exact ⟨g₂, hg₂.trans hheld, rfl⟩

theorem inPlace_of_addLayers {names : List String} (hps : ps.Pairwise fun p q => p.1 < q.1)
    (hc : ∀ p ∈ ps, ops.InPlace p.1 p.2 c) (hd : addLayers now r ps names c = .ok d) :
    ∀ p ∈ ps, ops.InPlace p.1 p.2 d := by
  induction names generalizing c with
  | nil =>
    cases hd
    exact hc
  | cons name names ih =>
    obtain ⟨l, -, hl⟩ := bind_eq_ok.1 hd
    obtain ⟨e, he, hd⟩ := bind_eq_ok.1 hl
    exact ih (inPlace_of_applyProperties hps he) hd

/-- A configured size leaves the properties in place, unless one of them is another size. -/
theorem inPlace_of_sized (hc : ∀ p ∈ ps, ops.InPlace p.1 p.2 c) (hd : sized config c = .ok d)
    (hsize : ∀ n v, config.size = some n → ("size", v) ∈ ps →
      .recency ∈ d.layers ∨ .arrival ∈ d.layers → Text.settingNumber? v = some n) :
    ∀ p ∈ ps, ops.InPlace p.1 p.2 d := by
  cases hn : config.size with
  | none =>
    rw [sized_none hn hd]
    exact hc
  | some n =>
    obtain ⟨b, hd⟩ := sized_some hn hd
    rintro ⟨name, v⟩ hp
    by_cases hname : name = "size"
    · subst hname
      change ops.InPlace "size" v d
      have hstore : "size" ∉ Store.settings := by decide
      by_cases hlayer : .recency ∈ d.layers ∨ .arrival ∈ d.layers
      · have hnumber := (bound?_of_size hd (Stack.isSome_bound? hlayer)).1
        have hv := (hsize n v hn hp hlayer).trans hnumber.symm
        obtain ⟨t, ht, rfl⟩ := configure_eq_ok.1 hd
        exact inPlace_iff.2 (ResultCache.inPlace_of_configure (configure_of_number hstore hv ht))
      · have hls : ∀ l ∈ d.layers, l.setting? ≠ some "size" := by
          intro l hl
          cases l with
          | recency => exact absurd (.inl hl) hlayer
          | arrival => exact absurd (.inr hl) hlayer
          | _ => decide
        exact inPlace_iff.2 (inPlace_of_not_mem hstore hls)
    · exact inPlace_of_configure_ne (Ne.symm hname) (hc _ hp) hd

/-- So does a configured interval. -/
theorem inPlace_timed (hc : ∀ p ∈ ps, ops.InPlace p.1 p.2 c)
    (hinterval : ∀ ms v, config.clearInterval = some ms → ("clearInterval", v) ∈ ps →
      Text.settingNumber? v = some ms) :
    ∀ p ∈ ps, ops.InPlace p.1 p.2 (timed now config c) := by
  rw [timed]
  split
  · rename_i ms hms
    rintro ⟨name, v⟩ hp
    by_cases hname : name = "clearInterval"
    · subst hname
      exact inPlace_iff.2 (Layer.inPlace_iff.2 (.inl ⟨rfl, ms, hinterval ms v hms hp, rfl⟩))
    · refine inPlace_wrap _ ?_ (hc _ hp)
      simpa [Layer.setting?] using Ne.symm hname
  · exact hc

theorem inPlace_surrounded (hc : ∀ p ∈ ps, ops.InPlace p.1 p.2 (timed now config c)) :
    ∀ p ∈ ps, ops.InPlace p.1 p.2 (surrounded now config c) := by
  intro p hp
  have hcopies : ops.InPlace p.1 p.2 ((timed now config c).wrapIf config.copies .copying ()) := by
    cases config.copies
    · exact hc p hp
    · exact inPlace_wrap (l := .copying) () (by simp [Layer.setting?]) (hc p hp)
  exact inPlace_wrap (l := .counting) _ (by simp [Layer.setting?])
    (inPlace_wrap (l := .exclusive) () (by simp [Layer.setting?]) hcopies)

theorem mem_layers_timed {l : Layer} (hl : l ∈ c.layers) : l ∈ (timed now config c).layers := by
  rw [timed]
  split
  · exact List.mem_cons_of_mem _ hl
  · exact hl

theorem mem_layers_surrounded {l : Layer} (hl : l ∈ (timed now config c).layers) :
    l ∈ (surrounded now config c).layers := by
  have hcopies : l ∈ ((timed now config c).wrapIf config.copies .copying ()).layers := by
    cases config.copies
    · exact hl
    · exact List.mem_cons_of_mem _ hl
  exact List.mem_cons_of_mem _ (List.mem_cons_of_mem _ hcopies)

/-- Where the properties agree with the configured size and interval, the cache that locks is the
other one under a locking layer. -/
theorem build_locks (hc : build now r id { config with locks := false } = .ok c)
    (hd : build now r id { config with locks := true } = .ok d)
    (hsize : ∀ n v, config.size = some n → ("size", v) ∈ config.properties.entries →
      .recency ∈ c.layers ∨ .arrival ∈ c.layers → Text.settingNumber? v = some n)
    (hinterval : ∀ ms v, config.clearInterval = some ms →
      ("clearInterval", v) ∈ config.properties.entries → .expiry ∈ c.layers →
      Text.settingNumber? v = some ms) :
    d = c ∨ ∃ g : Gate, g.held = [] ∧ d = c.wrap .gate g := by
  cases built hc with
  | @other s base hname hs hbase =>
    left
    cases built hd with
    | perpetual hname' => exact absurd hname' hname
    | @other s' base' _ hs' hbase' =>
      obtain rfl : s = s' := Except.ok.inj (hs.symm.trans hs')
      obtain rfl : base = base' := Except.ok.inj (hbase.symm.trans hbase')
      rfl
  | @perpetual s base inner bounded _ hname hs hbase hinner hbounded hc =>
    right
    cases built hd with
    | other hname' => exact absurd hname hname'
    | @perpetual s' base' inner' bounded' _ _ hs' hbase' hinner' hbounded' hd =>
      obtain rfl : s = s' := Except.ok.inj (hs.symm.trans hs')
      obtain rfl : base = base' := Except.ok.inj (hbase.symm.trans hbase')
      obtain rfl : inner = inner' := Except.ok.inj (hinner.symm.trans hinner')
      obtain rfl : bounded = bounded' := Except.ok.inj (hbounded.symm.trans hbounded')
      obtain rfl : surrounded now config bounded = c := Except.ok.inj hc
      have hbase := inPlace_of_applyProperties config.properties.sorted hbase
      have hinner := inPlace_of_addLayers config.properties.sorted hbase hinner
      have hbounded := inPlace_of_sized hinner hbounded fun n v hn hv hlayer =>
        hsize n v hn hv (hlayer.imp (fun hl => mem_layers_surrounded (mem_layers_timed hl))
          fun hl => mem_layers_surrounded (mem_layers_timed hl))
      have htimed : ∀ p ∈ config.properties.entries, ops.InPlace p.1 p.2 (timed now config bounded) :=
        inPlace_timed hbounded fun ms v hms hv =>
          hinterval ms v hms hv (mem_layers_surrounded (by simp [timed, hms, wrap]))
      exact applyProperties_wrap_gate (inPlace_surrounded htimed) hd

/-- Where the properties agree with the configured size and interval, polite callers cannot tell a
cache that locks from one that does not. -/
theorem answers_of_locks (hc : build now r id { config with locks := false } = .ok c)
    (hd : build now r id { config with locks := true } = .ok d)
    (hsize : ∀ n v, config.size = some n → ("size", v) ∈ config.properties.entries →
      .recency ∈ c.layers ∨ .arrival ∈ c.layers → Text.settingNumber? v = some n)
    (hinterval : ∀ ms v, config.clearInterval = some ms →
      ("clearInterval", v) ∈ config.properties.entries → .expiry ∈ c.layers →
      Text.settingNumber? v = some ms)
    (past : List CacheCall) (hpast : CacheCall.Polite ops c past) :
    CacheCall.answers ops d past = CacheCall.answers ops c past := by
  obtain rfl | ⟨g, hg, rfl⟩ := build_locks hc hd hsize hinterval
  · rfl
  · obtain ⟨ls, s⟩ := c
    have hwrap : CacheCall.answers ops (wrap .gate g ⟨ls, s⟩) past =
        CacheCall.answers (Gate.ops (stackOps ls)) (g, s) past := answers_ops (.gate :: ls) (g, s) past
    rw [hwrap, answers_ops, Gate.answers_of_polite hg (polite_ops.1 hpast)]

/-- A size and an interval beside properties that say the same. -/
def agreeing : Config :=
  { Config.standard with
    size := some 2
    clearInterval := some 20
    properties := .ofList [("clearInterval", "20"), ("size", "2"), ("timeout", "5")] }

/-- A key is read, found missing, put and read again. -/
theorem answers_of_locks_agreeing :
    let past : List CacheCall := [.get 3 .empty (numberedKey 1),
      .put 2 .empty (numberedKey 1) .absence, .get 1 .empty (numberedKey 1)]
    ∃ c d, build 0 .standard "b" { agreeing with locks := false } = .ok c ∧
      build 0 .standard "b" { agreeing with locks := true } = .ok d ∧
      .recency ∈ c.layers ∧ .expiry ∈ c.layers ∧ CacheCall.Polite ops c past ∧
      (∀ n v, agreeing.size = some n → ("size", v) ∈ agreeing.properties.entries →
        .recency ∈ c.layers ∨ .arrival ∈ c.layers → Text.settingNumber? v = some n) ∧
      (∀ ms v, agreeing.clearInterval = some ms →
        ("clearInterval", v) ∈ agreeing.properties.entries → .expiry ∈ c.layers →
        Text.settingNumber? v = some ms) ∧
      CacheCall.answers ops d past = CacheCall.answers ops c past := by
  intro past
  have hentries : agreeing.properties.entries =
      [("clearInterval", "20"), ("size", "2"), ("timeout", "5")] := by decide
  obtain ⟨c, hc, hlayers⟩ := exists_built
    (x := build 0 .standard "b" { agreeing with locks := false })
    (f := Cache.layers) (a := [.counting, .exclusive, .copying, .expiry, .recency]) rfl
  obtain ⟨d, hd, -⟩ := exists_built (x := build 0 .standard "b" { agreeing with locks := true })
    (f := Cache.layers) (a := [.gate, .counting, .exclusive, .copying, .expiry, .recency]) rfl
  have hpolite : CacheCall.Polite ops c past := ⟨fun hawaited => hawaited.1 rfl, fun hnone => hnone, trivial⟩
  have hsize : ∀ n v, agreeing.size = some n → ("size", v) ∈ agreeing.properties.entries →
      .recency ∈ c.layers ∨ .arrival ∈ c.layers → Text.settingNumber? v = some n := by
    intro n v hn hv _
    obtain rfl : v = "2" := by simpa [hentries] using hv
    cases hn
    decide +kernel
  have hinterval : ∀ ms v, agreeing.clearInterval = some ms →
      ("clearInterval", v) ∈ agreeing.properties.entries → .expiry ∈ c.layers →
      Text.settingNumber? v = some ms := by
    intro ms v hms hv _
    obtain rfl : v = "20" := by simpa [hentries] using hv
    cases hms
    decide +kernel
  exact ⟨c, d, hc, hd, by simp [hlayers], by simp [hlayers], hpolite, hsize, hinterval,
    answers_of_locks hc hd hsize hinterval past hpolite⟩

/-- The cache with a size of one and a property that says two comes to hold two entries if it locks,
and one if it does not. -/
theorem locks_change_answers :
    ¬ ∀ (now : Instant) (r : Registry) (id : String) (config : Config) (c d : Cache),
      build now r id { config with locks := false } = .ok c →
      build now r id { config with locks := true } = .ok d →
      ∀ past, CacheCall.Polite ops c past →
        CacheCall.answers ops d past = CacheCall.answers ops c past := by
  intro hsame
  let past : List CacheCall := [.size 2, .put 1 .empty (numberedKey 2) .absence,
    .put 0 .empty (numberedKey 1) .absence]
  obtain ⟨c, hc, hone⟩ := exists_built (x := build 0 .standard "b" { widened with locks := false })
    (f := fun c => (CacheCall.answers ops c past).head?) (a := some (.counted 1)) rfl
  obtain ⟨d, hd, htwo⟩ := exists_built (x := build 0 .standard "b" { widened with locks := true })
    (f := fun c => (CacheCall.answers ops c past).head?) (a := some (.counted 2)) rfl
  have heq := hsame 0 .standard "b" widened c d hc hd past trivial
  rw [heq, hone] at htwo
  cases htwo

end Cache

end ResultCache
