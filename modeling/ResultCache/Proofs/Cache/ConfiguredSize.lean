import ResultCache.Proofs.Cache.Bounds
import ResultCache.Proofs.Cache.Settings
import ResultCache.Proofs.Text.Setting

/-!
# The configured size

A configured size goes to the outermost bounding layer of the configured ones, so it is that layer's
bound (`Stack.bound?`) that a built cache has to respect. It does under two conditions
(`Cache.size_le_of_build`). The size is not zero if there is a layer of arrivals, which takes a zero
but then keeps everything; a layer of recently used keys takes none. And if the cache locks, no
property sets the size to a larger number, or such a layer to zero: the properties are offered once
more through the locking layer, and there the property comes last. Entries that are not legible are
left out of account where `Stack.entries_within_sizes` leaves them out.

`exceeds_configured_size` are the two configurations for which more entries are kept.
-/
namespace ResultCache

/-- The bound of a layer. -/
def Layer.bound? : (l : Layer) → l.State → Option Nat
  | .recency, r => some r.capacity
  | .arrival, a => some a.bound
  | _, _ => none

theorem Layer.bound?_eq_none {l : Layer} (hl : l.setting? ≠ some "size") (s : l.State) :
    l.bound? s = none := by
  cases l <;> first | rfl | exact absurd rfl hl

theorem Layer.bound?_set {l : Layer} {n : Nat} {s t : l.State} (hl : l.setting? = some "size")
    (ht : l.set? n s = some t) : l.bound? t = some n ∧ (l.bound? s).isSome = true := by
  cases l with
  | recency =>
    simp only [set?] at ht
    split at ht
    · cases ht
      exact ⟨rfl, rfl⟩
    · cases ht
  | arrival =>
    cases ht
    exact ⟨rfl, rfl⟩
  | _ => exact absurd hl (by decide)

/-- A layer that is set lists the keys it listed before or none. -/
theorem Layer.unused_set {l : Layer} {n : Nat} {s t : l.State} (hs : l.Unused s)
    (ht : l.set? n s = some t) : l.Unused t := by
  cases l with
  | recency =>
    simp only [set?] at ht
    split at ht
    · cases ht
      rfl
    · cases ht
  | arrival =>
    cases ht
    exact hs
  | _ => trivial

/-- Whether the outermost bounding layer of a stack bounds it, if only legible entries are put or
whatever is put. -/
def boundHolds (legible : Bool) : List Layer → Bool
  | [] => false
  | .recency :: ls => failsClean legible ls
  | .arrival :: _ => true
  | _ :: ls => boundHolds legible ls

theorem boundHolds_true {ls : List Layer} (hls : .recency ∈ ls ∨ .arrival ∈ ls) :
    boundHolds true ls = true := by
  induction ls with
  | nil => simp at hls
  | cons l ls ih =>
    cases l with
    | recency => exact failsClean_true ls
    | arrival => rfl
    | _ => exact ih (by simpa using hls)

namespace Stack

/-- The bound of the outermost bounding layer. -/
def bound? : {ls : List Layer} → Stack ls → Option Nat
  | [], _ => none
  | l :: _, s => (l.bound? s.1).or (bound? s.2)

variable {ls : List Layer} {s t : Stack ls} {name value : String} {b : Bool}

theorem isSome_bound? (hls : .recency ∈ ls ∨ .arrival ∈ ls) : s.bound?.isSome = true := by
  induction ls with
  | nil => simp at hls
  | cons l ls ih =>
    cases l with
    | recency => rfl
    | arrival => rfl
    | _ => exact ih (by simpa using hls)

theorem mem_sizes {legible : Bool} {n : Nat} (hls : boundHolds legible ls = true)
    (hn : s.bound? = some n) : n ∈ s.sizes legible := by
  induction ls with
  | nil => cases hn
  | cons l ls ih =>
    cases l with
    | recency =>
      cases hn
      have hclean : failsClean legible ls = true := hls
      simp [sizes, hclean]
    | arrival =>
      cases hn
      exact List.mem_cons_self
    | _ => exact ih hls hn

/-- Only a layer of arrivals has a bound of zero. -/
theorem bound?_pos {n : Nat} (hls : .arrival ∉ ls) (hn : s.bound? = some n) : 0 < n := by
  induction ls with
  | nil => cases hn
  | cons l ls ih =>
    obtain ⟨hl, hls'⟩ := not_or.1 (mt List.mem_cons.2 hls)
    cases l with
    | recency =>
      cases hn
      exact s.1.capacity_pos
    | arrival => exact absurd rfl hl
    | _ => exact ih hls' hn

/-- The size goes to the outermost bounding layer, and nothing else changes its bound. -/
theorem bound?_of_configure (ht : (stackOps ls).configure name value s = .ok (b, t)) :
    t.bound? = if name = "size" then s.bound?.bind fun _ => Text.settingNumber? value
      else s.bound? := by
  induction ls generalizing b with
  | nil => simp [bound?]
  | cons l ls ih =>
    rcases Layer.configure_eq_ok.1 ht with ⟨hown, ⟨n, hn, hset⟩, hunder, -⟩ | ⟨hother, hlayer, ht⟩
    · rw [bound?, bound?, hunder]
      by_cases hname : name = "size"
      · obtain ⟨ht, hs⟩ := Layer.bound?_set (hname ▸ hown) hset
        obtain ⟨m, hm⟩ := Option.isSome_iff_exists.1 hs
        simp [hname, ht, hm, hn]
      · have hl : l.setting? ≠ some "size" := by simpa [hown] using hname
        rw [if_neg hname, Layer.bound?_eq_none hl, Layer.bound?_eq_none hl]
    · rw [bound?, bound?, hlayer, ih ht]
      split
      · rename_i hname
        rw [Layer.bound?_eq_none (hname ▸ hother), Option.none_or, Option.none_or]
      · rfl

theorem unused_of_configure (hs : s.Unused)
    (ht : (stackOps ls).configure name value s = .ok (b, t)) : t.Unused := by
  induction ls generalizing b with
  | nil => trivial
  | cons l ls ih =>
    rcases Layer.configure_eq_ok.1 ht with ⟨-, ⟨n, -, hset⟩, hunder, -⟩ | ⟨-, hlayer, ht⟩
    · exact ⟨Layer.unused_set hs.1 hset, hunder ▸ hs.2⟩
    · exact ⟨hlayer ▸ hs.1, ih hs.2 ht⟩

end Stack

namespace Cache

variable {now : Instant} {r : Registry} {id : String} {config : Config} {c d : Cache}
  {ps : List (String × String)}

/-- The properties change the bound to the value of a size among them, or not at all. -/
theorem bound?_of_applyProperties (hd : applyProperties ps c = .ok d) :
    d.state.bound? = c.state.bound? ∨
      ∃ v, ("size", v) ∈ ps ∧ d.state.bound? = Text.settingNumber? v := by
  induction ps generalizing c with
  | nil =>
    cases hd
    exact .inl rfl
  | cons p ps ih =>
    obtain ⟨b, e, he, hd⟩ := applyProperties_cons.1 hd
    rcases ih hd with hsame | ⟨v, hv, hset⟩
    · obtain ⟨t, ht, rfl⟩ := configure_eq_ok.1 he
      have hbound := hsame.trans (Stack.bound?_of_configure ht)
      split at hbound
      · rename_i hname
        cases hc : c.state.bound? with
        | none =>
          left
          rw [hbound, hc, Option.bind_none]
        | some n =>
          right
          refine ⟨p.2, ?_, ?_⟩
          · rw [← hname]
            exact List.mem_cons_self
          · rw [hbound, hc, Option.bind_some]
      · exact .inl hbound
    · exact .inr ⟨v, List.mem_cons_of_mem _ hv, hset⟩

theorem unused_of_configured {name value : String} {b : Bool} (hc : c.state.Unused)
    (hd : ops.configure name value c = .ok (b, d)) : d.state.Unused := by
  obtain ⟨t, ht, rfl⟩ := configure_eq_ok.1 hd
  exact Stack.unused_of_configure hc ht

theorem unused_of_applyProperties (hc : c.state.Unused) (hd : applyProperties ps c = .ok d) :
    d.state.Unused := by
  induction ps generalizing c with
  | nil =>
    cases hd
    exact hc
  | cons p ps ih =>
    obtain ⟨b, e, he, hd⟩ := applyProperties_cons.1 hd
    exact ih (unused_of_configured hc he) hd

theorem unused_initial (now : Instant) (l : Layer) : l.Unused (l.initial now) := by
  cases l <;> trivial

theorem unused_of_addLayers {names : List String} (hc : c.state.Unused)
    (hd : addLayers now r ps names c = .ok d) : d.state.Unused := by
  induction names generalizing c with
  | nil =>
    cases hd
    exact hc
  | cons name names ih =>
    obtain ⟨l, -, hl⟩ := bind_eq_ok.1 hd
    obtain ⟨e, he, hd⟩ := bind_eq_ok.1 hl
    have hwrap : (c.wrap l (l.initial now)).state.Unused := ⟨unused_initial now l, hc⟩
    exact ih (unused_of_applyProperties hwrap he) hd

/-- The standard layers have no bound of their own and list nothing. -/
theorem surrounded_state (now : Instant) (config : Config) (c : Cache) :
    (surrounded now config c).state.bound? = c.state.bound? ∧
      ((surrounded now config c).state.Unused ↔ c.state.Unused) := by
  rw [surrounded, timed]
  cases config.clearInterval <;> cases config.copies <;>
    exact ⟨rfl, by simp [wrapIf, wrap, Stack.Unused, Layer.Unused]⟩

/-- A size that the outermost bounding layer took is its bound. -/
theorem bound?_of_size {n : Nat} {b : Bool}
    (hd : ops.configure "size" (Config.natText n) c = .ok (b, d))
    (hsome : d.state.bound?.isSome = true) :
    Text.settingNumber? (Config.natText n) = some n ∧ d.state.bound? = some n := by
  obtain ⟨t, ht, rfl⟩ := configure_eq_ok.1 hd
  obtain ⟨m, hm⟩ := Option.isSome_iff_exists.1 hsome
  have hbound := Stack.bound?_of_configure ht
  rw [if_pos rfl, hm] at hbound
  obtain ⟨_, -, hnumber⟩ := Option.bind_eq_some_iff.1 hbound.symm
  obtain rfl : m = n := Text.settingNumber?_intText hnumber
  exact ⟨hnumber, hm⟩

theorem unused_of_sized (hc : c.state.Unused) (hd : sized config c = .ok d) : d.state.Unused := by
  cases hsize : config.size with
  | none =>
    rw [sized_none hsize hd]
    exact hc
  | some n =>
    obtain ⟨b, hd⟩ := sized_some hsize hd
    exact unused_of_configured hc hd

/-- A cache that was built lists nothing yet. -/
theorem Built.unused (hc : Built now r id config c) : c.state.Unused := by
  cases hc with
  | @perpetual _ _ _ bounded _ _ _ hbase hinner hbounded hc =>
    have hunused := unused_of_applyProperties (c := ofStore _) trivial hbase
    have hinner := unused_of_addLayers hunused hinner
    have hbounded := unused_of_sized hinner hbounded
    have hsurrounded := (surrounded_state now config bounded).2.2 hbounded
    rw [guarded] at hc
    split at hc
    · have hgate : ((surrounded now config bounded).wrap .gate (.ofTimeout none)).state.Unused :=
        ⟨trivial, hsurrounded⟩
      exact unused_of_applyProperties hgate hc
    · cases hc
      exact hsurrounded
  | other _ _ hbase =>
    have hunused := unused_of_applyProperties (c := ofStore _) trivial hbase
    exact ⟨trivial, hunused⟩

/-- The bound of a cache with a size is that size, unless the cache locks and has a size among its
properties. -/
theorem Built.bound? {n : Nat} (hc : Built now r id config c) (hsize : config.size = some n)
    (hlayer : .recency ∈ c.layers ∨ .arrival ∈ c.layers) :
    c.state.bound? = some n ∨ config.locks = true ∧
      ∃ v, ("size", v) ∈ config.properties.entries ∧ c.state.bound? = Text.settingNumber? v := by
  have hsome := Stack.isSome_bound? (s := c.state) hlayer
  cases hc with
  | @perpetual _ _ inner bounded _ _ _ _ _ hbounded hc =>
    have hown : c.state.bound? = bounded.state.bound? → c.state.bound? = some n := by
      intro hc
      obtain ⟨b, hd⟩ := sized_some hsize hbounded
      rw [hc] at hsome ⊢
      exact (bound?_of_size hd hsome).2
    have hsurrounded := (surrounded_state now config bounded).1
    rw [guarded] at hc
    split at hc
    · rename_i hlocks
      rcases bound?_of_applyProperties hc with hsame | hproperty
      · exact .inl (hown (hsame.trans hsurrounded))
      · exact .inr ⟨hlocks, hproperty⟩
    · cases hc
      exact .inl (hown hsurrounded)
  | @other _ base _ _ hbase =>
    have hlayers : base.layers = [] := layers_of_applyProperties hbase
    simp [wrap, hlayers] at hlayer

/-- A cache that is built over a perpetual store with a size and a bounding layer never has more
entries than that, whatever is called and at whatever times. -/
theorem size_le_of_build {n : Nat} (hr : r.Plain) (hsize : config.size = some n)
    (hc : build now r id config = .ok c) (hlayer : .recency ∈ c.layers ∨ .arrival ∈ c.layers)
    (hpos : .arrival ∈ c.layers → 0 < n)
    (hproperty : config.locks = true → ∀ v m, ("size", v) ∈ config.properties.entries →
      Text.settingNumber? v = some m → m ≤ n ∧ (.arrival ∈ c.layers → 0 < m))
    (past : List CacheCall)
    (hpast : (∀ call ∈ past, call.Legible) ∨ boundHolds false c.layers = true) :
    (CacheCall.after ops c past).store.entries.size ≤ n := by
  obtain ⟨m, hm, hmn, harrival⟩ :
      ∃ m, c.state.bound? = some m ∧ m ≤ n ∧ (.arrival ∈ c.layers → 0 < m) := by
    rcases (built hc).bound? hsize hlayer with hbound | ⟨hlocks, v, hv, hbound⟩
    · exact ⟨n, hbound, Nat.le_refl n, hpos⟩
    · obtain ⟨m, hm⟩ := Option.isSome_iff_exists.1 (Stack.isSome_bound? (s := c.state) hlayer)
      exact ⟨m, hm, hproperty hlocks v m hv (hbound.symm.trans hm)⟩
  have hmpos : 0 < m := by
    by_cases hls : .arrival ∈ c.layers
    · exact harrival hls
    · exact Stack.bound?_pos hls hm
  have hstore : c.state.store = .perpetual id := build_store hr hc
  have hunused := (built hc).unused
  have hafter : CacheCall.after ops c past =
      ⟨c.layers, CacheCall.after (stackOps c.layers) c.state past⟩ := after_ops c.layers c.state past
  rw [hafter]
  apply Nat.le_trans _ hmn
  rcases hpast with hlegible | hholds
  · have hkept : Stack.Kept true c.state (CacheCall.after (stackOps c.layers) c.state past) :=
      Stack.kept_after hstore hunused fun _ => hlegible
    exact hkept.size_le (Stack.mem_sizes (boundHolds_true hlayer) hm) hmpos
  · have hkept : Stack.Kept false c.state (CacheCall.after (stackOps c.layers) c.state past) :=
      Stack.kept_after hstore hunused (by simp)
    exact hkept.size_le (Stack.mem_sizes hholds hm) hmpos

/-- What is true of the cache that was built, if one was. -/
theorem exists_built {α : Type} {x : Result Cache} {f : Cache → α} {a : α}
    (hx : x.toOption.map f = some a) : ∃ c, x = .ok c ∧ f c = a := by
  cases x with
  | error e => cases hx
  | ok c => exact ⟨c, rfl, Option.some.inj hx⟩

/-- A size of two, and of one once the cache locks. -/
def narrowed : Config :=
  { Config.standard with size := some 2, locks := true, properties := .ofList [("size", " +1")] }

/-- Bytes that mean nothing count as well, since nothing is decoded below the bounding layer. -/
theorem size_le_of_build_narrowed :
    let past : List CacheCall :=
      [.put 1 .empty (numberedKey 2) .absence, .put 0 .empty (numberedKey 1) (.encoded [0xff])]
    Registry.standard.Plain ∧ narrowed.size = some 2 ∧
      ∃ c, build 0 .standard "b" narrowed = .ok c ∧ .recency ∈ c.layers ∧
        (.arrival ∈ c.layers → 0 < 2) ∧
        (narrowed.locks = true → ∀ v m, ("size", v) ∈ narrowed.properties.entries →
          Text.settingNumber? v = some m → m ≤ 2 ∧ (.arrival ∈ c.layers → 0 < m)) ∧
        boundHolds false c.layers = true ∧
        (CacheCall.after ops c past).store.entries.size ≤ 2 := by
  intro past
  obtain ⟨c, hc, hlayers⟩ := exists_built (x := build 0 .standard "b" narrowed)
    (f := Cache.layers) (a := [.gate, .counting, .exclusive, .copying, .recency]) rfl
  have hlayer : .recency ∈ c.layers := by simp [hlayers]
  have hproperty : ∀ v m, ("size", v) ∈ narrowed.properties.entries →
      Text.settingNumber? v = some m → m ≤ 2 ∧ (.arrival ∈ c.layers → 0 < m) := by
    intro v m hv hm
    have hentries : narrowed.properties.entries = [("size", " +1")] := by decide
    rw [hentries, List.mem_singleton] at hv
    cases hv
    have hone : Text.settingNumber? " +1" = some 1 := by decide +kernel
    cases hone.symm.trans hm
    exact ⟨by decide, fun _ => by decide⟩
  have hholds : boundHolds false c.layers = true := by
    rw [hlayers]
    rfl
  exact ⟨Registry.standard_plain, rfl, c, hc, hlayer, fun _ => by decide, fun _ => hproperty, hholds,
    size_le_of_build Registry.standard_plain rfl hc (.inl hlayer) (fun _ => by decide)
      (fun _ => hproperty) past (.inr hholds)⟩

/-- Whatever is called, a cache that is built with the standard names from this configuration never
has more entries than its size. -/
def Config.Honoured (config : Config) : Prop :=
  ∀ (now : Instant) (id : String) (n : Nat) (c : Cache), config.size = some n →
    build now .standard id config = .ok c → .recency ∈ c.layers ∨ .arrival ∈ c.layers →
    ∀ past : List CacheCall, (CacheCall.after ops c past).store.entries.size ≤ n

/-- A size of one, which a property makes two once the cache locks. -/
def widened : Config :=
  { Config.standard with size := some 1, locks := true, properties := .ofList [("size", "2")] }

/-- The latest of no arrivals. -/
def noArrivals : Config := { Config.standard with layers := ["FIFO"], size := some 0 }

/-- With locks a property takes the place of the configured size, and without locks a layer of
arrivals of size zero removes the key that is about to be put and nothing else. -/
theorem exceeds_configured_size :
    (¬ ∀ config : Config, config.locks = true → config.Honoured) ∧
      ¬ ∀ config : Config, config.locks = false → config.Honoured := by
  constructor
  · intro hhonoured
    let past : List CacheCall :=
      [.put 1 .empty (numberedKey 2) .absence, .put 0 .empty (numberedKey 1) .absence]
    obtain ⟨c, hc, hkept⟩ := exists_built (x := build 0 .standard "b" widened)
      (f := fun c => (c.layers, (CacheCall.after ops c past).store.entries.size))
      (a := ([.gate, .counting, .exclusive, .copying, .recency], 2)) rfl
    obtain ⟨hlayers, hsize⟩ := Prod.mk.inj hkept
    have hle := hhonoured widened rfl 0 "b" 1 c rfl hc (.inl (by simp [hlayers])) past
    omega
  · intro hhonoured
    let past : List CacheCall := [.put 0 .empty (numberedKey 1) .absence]
    obtain ⟨c, hc, hkept⟩ := exists_built (x := build 0 .standard "b" noArrivals)
      (f := fun c => (c.layers, (CacheCall.after ops c past).store.entries.size))
      (a := ([.counting, .exclusive, .copying, .arrival], 1)) rfl
    obtain ⟨hlayers, hsize⟩ := Prod.mk.inj hkept
    have hle := hhonoured noArrivals rfl 0 "b" 0 c rfl hc (.inr (by simp [hlayers])) past
    omega

end Cache

end ResultCache
