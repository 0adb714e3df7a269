import ResultCache.Proofs.Cache.Build

/-!
# What a setting changes

A layer takes the setting it has (`Layer.setting?`, `Layer.set?`) and passes every other one on to
the cache below (`Layer.configure_eq_ok`), so a setting goes to the outermost layer that has it, or
else to the store. A setting is in place (`CacheOps.InPlace`) if making it again changes nothing: it
is once it was made (`inPlace_of_configure`), and a setting of another name leaves it in place
(`inPlace_of_configure_ne`). A list of properties with distinct names is in place once all were
offered (`Cache.inPlace_of_applyProperties`).
-/
namespace ResultCache

theorem settingNumber_eq_ok {cache name value : String} {n : Nat} :
    settingNumber cache name value = .ok n ↔ Text.settingNumber? value = some n := by
  rw [settingNumber]
  split
  · rename_i m hm
    simp [hm]
  · rename_i hnone
    simp [hnone]

theorem configureBelow_eq_ok_iff {ρ σ : Type} {l : ρ} {r : Result (Bool × σ)} {b : Bool}
    {t : ρ × σ} : configureBelow l r = .ok (b, t) ↔ t.1 = l ∧ r = .ok (b, t.2) := by
  constructor
  · exact configureBelow_eq_ok
  · rintro ⟨rfl, rfl⟩
    rfl

/-- A layer with a setting of one name takes it if the value is a number it can be set to, and passes
on any other. -/
theorem take_eq_ok {ρ σ : Type} {own cache name value : String} {f : Nat → Result (Bool × ρ × σ)}
    {l : ρ} {r : Result (Bool × σ)} {b : Bool} {t : ρ × σ} (set : Nat → Option ρ) (under : σ)
    (hf : ∀ n, f n = .ok (b, t) ↔ set n = some t.1 ∧ t.2 = under ∧ b = true) :
    (if name = own then settingNumber cache name value >>= f else configureBelow l r) =
        .ok (b, t) ↔
      (own = name ∧ (∃ n, Text.settingNumber? value = some n ∧ set n = some t.1) ∧ t.2 = under ∧
        b = true) ∨
      (own ≠ name ∧ t.1 = l ∧ r = .ok (b, t.2)) := by
  by_cases hname : name = own
  · rw [if_pos hname, bind_eq_ok]
    simp only [settingNumber_eq_ok, hf, hname]
    grind
  · rw [if_neg hname, configureBelow_eq_ok_iff]
    simp [Ne.symm hname]

namespace Layer

/-- The name of the setting that a layer has. -/
def setting? : Layer → Option String
  | recency | arrival => some "size"
  | expiry => some "clearInterval"
  | gate => some "timeout"
  | copying | exclusive | counting => none

/-- What a layer remembers once its setting is set to a number; it cannot keep the most recently used
of no keys. -/
def set? (n : Nat) : (l : Layer) → l.State → Option l.State
  | recency, _ => if h : 0 < n then some (Recency.ofCapacity n h) else none
  | arrival, a => some { a with bound := n }
  | expiry, e => some { e with interval := milliseconds n }
  | gate, g => some { g with timeout := some n }
  | copying, _ => none
  | exclusive, _ => none
  | counting, _ => none

/-- Setting a layer to the same number again changes nothing. -/
theorem set?_idem {l : Layer} {n : Nat} {s t : l.State} (ht : l.set? n s = some t) :
    l.set? n t = some t := by
  cases l with
  | recency =>
    have ht' : (if h : 0 < n then some (Recency.ofCapacity n h) else none) = some t := ht
    exact ht'
  | arrival => cases ht; rfl
  | expiry => cases ht; rfl
  | gate => cases ht; rfl
  | copying => cases ht
  | exclusive => cases ht
  | counting => cases ht

variable {σ : Type} {B : CacheOps σ} {name value : String} {b : Bool}

/-- The setting of a layer is taken by the layer, and any other by the cache below. -/
theorem configure_eq_ok {l : Layer} {s t : l.State × σ} :
    (l.ops B).configure name value s = .ok (b, t) ↔
      (l.setting? = some name ∧ (∃ n, Text.settingNumber? value = some n ∧ l.set? n s.1 = some t.1) ∧
        t.2 = s.2 ∧ b = true) ∨
      (l.setting? ≠ some name ∧ t.1 = s.1 ∧ B.configure name value s.2 = .ok (b, t.2)) := by
  have hset : ∀ (t' : l.State × σ), (.ok (true, t') : Result (Bool × l.State × σ)) = .ok (b, t) ↔
      some t'.1 = some t.1 ∧ t.2 = t'.2 ∧ b = true := by
    grind
  have hpass : configureBelow s.1 (B.configure name value s.2) = .ok (b, t) ↔
      t.1 = s.1 ∧ B.configure name value s.2 = .ok (b, t.2) := configureBelow_eq_ok_iff
  cases l with
  | recency =>
    refine (take_eq_ok (fun n => recency.set? n s.1) s.2 ?_).trans ?_
    · intro n
      rw [Recency.resized, set?]
      split
      · exact hset _
      · simp [bind, Except.bind]
    · simp [setting?]
  | arrival =>
    refine (take_eq_ok (fun n => arrival.set? n s.1) s.2 fun n => hset _).trans ?_
    simp [setting?]
  | expiry =>
    refine (take_eq_ok (fun n => expiry.set? n s.1) s.2 fun n => hset _).trans ?_
    simp [setting?]
  | gate =>
    refine (take_eq_ok (fun n => gate.set? n s.1) s.2 fun n => hset _).trans ?_
    simp [setting?]
  | copying =>
    refine hpass.trans ?_
    simp [setting?]
  | exclusive =>
    refine hpass.trans ?_
    simp [setting?]
  | counting =>
    refine hpass.trans ?_
    simp [setting?]

end Layer

/-- A setting is in place if making it again changes nothing. -/
def CacheOps.InPlace {σ : Type} (B : CacheOps σ) (name value : String) (s : σ) : Prop :=
  ∃ b, B.configure name value s = .ok (b, s)

theorem Layer.inPlace_iff {σ : Type} {B : CacheOps σ} {name value : String} {l : Layer}
    {s : l.State × σ} :
    (l.ops B).InPlace name value s ↔
      (l.setting? = some name ∧ ∃ n, Text.settingNumber? value = some n ∧
        l.set? n s.1 = some s.1) ∨
      (l.setting? ≠ some name ∧ B.InPlace name value s.2) := by
  constructor
  · rintro ⟨b, hb⟩
    exact (configure_eq_ok.1 hb).imp (fun hs => ⟨hs.1, hs.2.1⟩) fun hs => ⟨hs.1, b, hs.2.2⟩
  · rintro (⟨hown, hset⟩ | ⟨hother, b, hb⟩)
    · exact ⟨true, configure_eq_ok.2 (.inl ⟨hown, hset, rfl, rfl⟩)⟩
    · exact ⟨b, configure_eq_ok.2 (.inr ⟨hother, rfl, hb⟩)⟩

namespace Store

/-- The settings that a store can have. -/
def settings : List String := ["fail", "reject"]

variable {name value : String} {s t : Store} {b : Bool}

theorem configure_of_not_mem (hname : name ∉ settings) (value : String) (s : Store) :
    s.configure name value = .ok (false, s) := by
  simp only [settings, List.mem_cons, List.not_mem_nil, or_false, not_or] at hname
  simp [configure, hname]

theorem inPlace_of_configure (ht : s.configure name value = .ok (b, t)) :
    ops.InPlace name value t := by
  by_cases hfail : (s.faulty && name == "fail") = true
  · rw [configure, if_pos hfail] at ht
    cases ht
    exact ⟨true, if_pos hfail⟩
  · rw [configure, if_neg hfail] at ht
    split at ht
    · cases ht
    · rename_i hreject
      cases ht
      exact ⟨false, (if_neg hfail).trans (if_neg hreject)⟩

theorem inPlace_of_configure_ne {other v : String} (hne : other ≠ name)
    (hs : ops.InPlace name value s) (ht : s.configure other v = .ok (b, t)) :
    ops.InPlace name value t := by
  by_cases hother : (s.faulty && other == "fail") = true
  · -- what is refused changes, which is another setting
    have hfail : ¬ (s.faulty && name == "fail") = true := by grind
    rw [configure, if_pos hother] at ht
    cases ht
    obtain ⟨b', hb'⟩ := hs
    change s.configure name value = _ at hb'
    rw [configure, if_neg hfail] at hb'
    split at hb'
    · cases hb'
    · rename_i hreject
      exact ⟨false, (if_neg hfail).trans (if_neg hreject)⟩
  · rw [configure, if_neg hother] at ht
    split at ht
    · cases ht
    · cases ht
      exact hs

end Store

variable {ls : List Layer} {name value : String} {b : Bool} {s t : Stack ls}

/-- A setting that was made is in place. -/
theorem inPlace_of_configure (ht : (stackOps ls).configure name value s = .ok (b, t)) :
    (stackOps ls).InPlace name value t := by
  induction ls generalizing b with
  | nil => exact Store.inPlace_of_configure ht
  | cons l ls ih =>
    apply Layer.inPlace_iff.2
    rcases Layer.configure_eq_ok.1 ht with ⟨hown, ⟨n, hn, hset⟩, -, -⟩ | ⟨hother, -, ht⟩
    · exact .inl ⟨hown, n, hn, Layer.set?_idem hset⟩
    · exact .inr ⟨hother, ih ht⟩

/-- It stays in place when another one is made. -/
theorem inPlace_of_configure_ne {other v : String} (hne : other ≠ name)
    (hs : (stackOps ls).InPlace name value s)
    (ht : (stackOps ls).configure other v s = .ok (b, t)) :
    (stackOps ls).InPlace name value t := by
  induction ls generalizing b with
  | nil => exact Store.inPlace_of_configure_ne hne hs ht
  | cons l ls ih =>
    apply Layer.inPlace_iff.2
    rcases Layer.configure_eq_ok.1 ht with ⟨hown, -, hunder, -⟩ | ⟨-, hlayer, ht⟩
    · rcases Layer.inPlace_iff.1 hs with ⟨hname, -⟩ | ⟨hname, hs⟩
      · rw [hown] at hname
        exact absurd (Option.some.inj hname) hne
      · rw [hunder]
        exact .inr ⟨hname, hs⟩
    · rw [hlayer]
      exact (Layer.inPlace_iff.1 hs).imp id fun hs => ⟨hs.1, ih hs.2 ht⟩

/-- Only the number counts in a setting that no store has. -/
theorem configure_of_number {w : String} (hname : name ∉ Store.settings)
    (hw : Text.settingNumber? w = Text.settingNumber? value)
    (ht : (stackOps ls).configure name value s = .ok (b, t)) :
    (stackOps ls).configure name w s = .ok (b, t) := by
  induction ls generalizing b with
  | nil =>
    cases (Store.configure_of_not_mem hname value s).symm.trans ht
    exact Store.configure_of_not_mem hname w s
  | cons l ls ih =>
    apply Layer.configure_eq_ok.2
    rcases Layer.configure_eq_ok.1 ht with ⟨hown, hset, hrest⟩ | ⟨hother, hlayer, ht⟩
    · simp only [← hw] at hset
      exact .inl ⟨hown, hset, hrest⟩
    · exact .inr ⟨hother, hlayer, ih ht⟩

/-- A setting that nothing has is in place. -/
theorem inPlace_of_not_mem (hname : name ∉ Store.settings)
    (hls : ∀ l ∈ ls, l.setting? ≠ some name) : (stackOps ls).InPlace name value s := by
  induction ls with
  | nil => exact ⟨false, Store.configure_of_not_mem hname value s⟩
  | cons l ls ih =>
    apply Layer.inPlace_iff.2
    exact .inr ⟨hls l List.mem_cons_self, ih fun m hm => hls m (List.mem_cons_of_mem _ hm)⟩

namespace Cache

variable {name value : String} {b : Bool} {c d : Cache} {ps : List (String × String)}

theorem configure_eq_ok : ops.configure name value c = .ok (b, d) ↔
    ∃ t, (stackOps c.layers).configure name value c.state = .ok (b, t) ∧ d = ⟨c.layers, t⟩ := by
  simp only [ops]
  rcases (stackOps c.layers).configure name value c.state with f | ⟨b', t⟩
  · simp [Except.map]
  · simp only [Except.map, Except.ok.injEq, Prod.mk.injEq]
    grind

/-- Properties are offered one after the other. -/
theorem applyProperties_cons {p : String × String} : applyProperties (p :: ps) c = .ok d ↔
    ∃ b e, ops.configure p.1 p.2 c = .ok (b, e) ∧ applyProperties ps e = .ok d := by
  constructor
  · intro hd
    obtain ⟨⟨b, e⟩, he, hd⟩ := bind_eq_ok.1 hd
    exact ⟨b, e, he, hd⟩
  · rintro ⟨b, e, he, hd⟩
    exact bind_eq_ok.2 ⟨(b, e), he, hd⟩

theorem inPlace_iff :
    ops.InPlace name value c ↔ (stackOps c.layers).InPlace name value c.state := by
  obtain ⟨ls, s⟩ := c
  constructor
  · rintro ⟨b, hb⟩
    obtain ⟨t, ht, hst⟩ := configure_eq_ok.1 hb
    cases hst
    exact ⟨b, ht⟩
  · rintro ⟨b, hb⟩
    exact ⟨b, configure_eq_ok.2 ⟨s, hb, rfl⟩⟩

theorem inPlace_of_configure (hd : ops.configure name value c = .ok (b, d)) :
    ops.InPlace name value d := by
  obtain ⟨t, ht, rfl⟩ := configure_eq_ok.1 hd
  exact inPlace_iff.2 (ResultCache.inPlace_of_configure ht)

theorem inPlace_of_configure_ne {other v : String} (hne : other ≠ name)
    (hc : ops.InPlace name value c) (hd : ops.configure other v c = .ok (b, d)) :
    ops.InPlace name value d := by
  have hs := inPlace_iff.1 hc
  obtain ⟨t, ht, rfl⟩ := configure_eq_ok.1 hd
  exact inPlace_iff.2 (ResultCache.inPlace_of_configure_ne hne hs ht)

/-- A layer that does not have the setting leaves it in place below. -/
theorem inPlace_wrap {l : Layer} (state : l.State) (hl : l.setting? ≠ some name)
    (hc : ops.InPlace name value c) : ops.InPlace name value (c.wrap l state) :=
  inPlace_iff.2 (Layer.inPlace_iff.2 (.inr ⟨hl, inPlace_iff.1 hc⟩))

theorem inPlace_of_applyProperties_ne (hne : ∀ p ∈ ps, p.1 ≠ name)
    (hc : ops.InPlace name value c) (hd : applyProperties ps c = .ok d) :
    ops.InPlace name value d := by
  induction ps generalizing c with
  | nil =>
    cases hd
    exact hc
  | cons p ps ih =>
    obtain ⟨b, e, he, hd⟩ := applyProperties_cons.1 hd
    have hp := inPlace_of_configure_ne (hne p List.mem_cons_self) hc he
    exact ih (fun q hq => hne q (List.mem_cons_of_mem _ hq)) hp hd

/-- Properties of distinct names are in place once they were all offered. -/
theorem inPlace_of_applyProperties (hps : ps.Pairwise fun p q => p.1 < q.1)
    (hd : applyProperties ps c = .ok d) : ∀ p ∈ ps, ops.InPlace p.1 p.2 d := by
  induction ps generalizing c with
  | nil => simp
  | cons p ps ih =>
    obtain ⟨hp, hps⟩ := List.pairwise_cons.1 hps
    obtain ⟨b, e, he, hrest⟩ := applyProperties_cons.1 hd
    intro q hq
    rcases List.mem_cons.1 hq with rfl | hq
    · have hne : ∀ r ∈ ps, r.1 ≠ q.1 := fun r hr heq => String.lt_irrefl _ (heq ▸ hp r hr)
      exact inPlace_of_applyProperties_ne hne (inPlace_of_configure he) hrest
    · exact ih hps hrest q hq

/-- The name of the store. -/
def Config.storeName (config : Config) : String := config.store.getD "PERPETUAL"

/-- The names of the layers over the store, innermost first. -/
def Config.layerNames (config : Config) : List String :=
  if config.store = none ∧ config.layers = [] then ["LRU"] else config.layers

/-- Gives the configured layers the configured size. -/
def sized (config : Config) (c : Cache) : Result Cache :=
  match config.size with
  | some n => (ops.configure "size" (Config.natText n) c).map (·.2)
  | none => .ok c

/-- The layer that clears at intervals, if there is an interval. -/
def timed (now : Instant) (config : Config) (c : Cache) : Cache :=
  match config.clearInterval with
  | some ms => c.wrap .expiry (Expiry.since now (milliseconds ms))
  | none => c

/-- The standard layers that do not lock. -/
def surrounded (now : Instant) (config : Config) (c : Cache) : Cache :=
  (((timed now config c).wrapIf config.copies .copying ()).wrap .exclusive ()).wrap .counting Stats.zero

/-- The locking layer, which is offered the properties, if the cache locks. -/
def guarded (config : Config) (c : Cache) : Result Cache :=
  if config.locks then
    applyProperties config.properties.entries (c.wrap .gate (Gate.ofTimeout none))
  else .ok c

theorem sized_some {config : Config} {n : Nat} (hn : config.size = some n)
    (hd : sized config c = .ok d) :
    ∃ b, ops.configure "size" (Config.natText n) c = .ok (b, d) := by
  simp only [sized, hn] at hd
  cases hr : ops.configure "size" (Config.natText n) c with
  | error f => simp [hr, Except.map] at hd
  | ok p =>
    simp only [hr, Except.map, Except.ok.injEq] at hd
    exact ⟨p.1, by rw [← hd]⟩

theorem sized_none {config : Config} (hnone : config.size = none) (hd : sized config c = .ok d) :
    d = c := by
  rw [sized, hnone] at hd
  exact (Except.ok.inj hd).symm

/-- The stages of building a cache, each over the one before: the store with its properties, the
configured layers, their size, and the standard layers, of which the locking one comes last. Over a
store other than the perpetual one there is a layer that counts and nothing else. -/
inductive Built (now : Instant) (r : Registry) (id : String) (config : Config) : Cache → Prop
  | perpetual {s : Store} {base inner bounded c : Cache}
    (hname : Text.upperAscii config.storeName = "PERPETUAL")
    (hs : r.newStore config.storeName id = .ok s)
    (hbase : applyProperties config.properties.entries (ofStore s) = .ok base)
    (hinner : addLayers now r config.properties.entries config.layerNames base = .ok inner)
    (hbounded : sized config inner = .ok bounded)
    (hc : guarded config (surrounded now config bounded) = .ok c) : Built now r id config c
  | other {s : Store} {base : Cache} (hname : Text.upperAscii config.storeName ≠ "PERPETUAL")
    (hs : r.newStore config.storeName id = .ok s)
    (hbase : applyProperties config.properties.entries (ofStore s) = .ok base) :
    Built now r id config (base.wrap .counting Stats.zero)

theorem addStandard_eq (now : Instant) (config : Config) (c : Cache) :
    addStandard now config c = sized config c >>= fun c => guarded config (surrounded now config c) := by
  unfold addStandard sized
  cases config.size <;> rfl

theorem built {now : Instant} {r : Registry} {id : String} {config : Config}
    (hc : build now r id config = .ok c) : Built now r id config c := by
  have hlay : (do
      let s ← r.newStore config.storeName id
      let c ← applyProperties config.properties.entries (ofStore s)
      if Text.upperAscii config.storeName = "PERPETUAL" then
        let c ← addLayers now r config.properties.entries config.layerNames c
        addStandard now config c
      else .ok (c.wrap .counting Stats.zero)) = .ok c := by
    rw [← hc, build, Config.storeName, Config.layerNames]
    cases config.store <;> simp
  obtain ⟨s, hs, hlay⟩ := bind_eq_ok.1 hlay
  obtain ⟨base, hbase, hlay⟩ := bind_eq_ok.1 hlay
  split at hlay
  · rename_i hname
    obtain ⟨inner, hinner, hlay⟩ := bind_eq_ok.1 hlay
    rw [addStandard_eq] at hlay
    obtain ⟨bounded, hbounded, hguarded⟩ := bind_eq_ok.1 hlay
    exact .perpetual hname hs hbase hinner hbounded hguarded
  · rename_i hname
    cases hlay
    exact .other hname hs hbase

end Cache
end ResultCache
