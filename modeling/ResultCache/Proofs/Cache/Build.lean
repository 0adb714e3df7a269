import ResultCache.Cache.Build

/-!
# Building leaves the store new

A registry is plain if every store it knows by name is a perpetual one. Whatever the configuration
says, a cache built from a plain registry lies over a new perpetual store with the id of the cache
(`build_store`): layers and properties do not touch what the store holds. Among the layers is the one
that copies if the configuration asks for it and the store is the built-in one (`copying_of_build`).
-/
namespace ResultCache

/-- Every store that the registry knows is perpetual. -/
def Registry.Plain (r : Registry) : Prop :=
  ∀ name make, r.find? name = some (.store make) → make = .perpetual

namespace Registry

/-- Registering a layer or the perpetual store keeps a registry plain. -/
theorem Plain.register {r : Registry} (hr : r.Plain) (name : String) {m : Maker}
    (hm : ∀ make, m = .store make → make = .perpetual) : (r.register name m).Plain := by
  intro other make hmake
  have hfind : (r.makers.insert (Text.upper name) m).get? (Text.upper other) =
      some (.store make) := hmake
  by_cases hname : Text.upper other = Text.upper name
  · rw [hname, NameMap.get?_insert_self] at hfind
    exact hm make (Option.some.inj hfind)
  · rw [NameMap.get?_insert_of_ne _ _ hname] at hfind
    exact hr other make hfind

theorem standard_plain : standard.Plain := by
  have hempty : empty.Plain := fun _ _ hmake => by cases hmake
  have hperpetual : (empty.register "PERPETUAL" (.store .perpetual)).Plain :=
    hempty.register "PERPETUAL" fun make hmake => by cases hmake; rfl
  have hlayers : ∀ (ps : List (String × Layer)) (r : Registry), r.Plain →
      (ps.foldl (fun r p => r.register p.1 (.layer p.2)) r).Plain := by
    intro ps
    induction ps with
    | nil => exact fun _ hr => hr
    | cons p ps ih => exact fun r hr => ih _ (hr.register p.1 fun _ hm => by cases hm)
  exact hlayers layerNames _ hperpetual

end Registry

/-- A setting that is passed on comes back from below. -/
theorem configureBelow_eq_ok {ρ σ : Type} {l : ρ} {r : Result (Bool × σ)} {b : Bool} {s : ρ × σ}
    (hs : configureBelow l r = .ok (b, s)) : s.1 = l ∧ r = .ok (b, s.2) := by
  rcases r with _ | ⟨b', t⟩
  · cases hs
  · cases hs
    exact ⟨rfl, rfl⟩

/-- The store at the bottom is one that has no properties. -/
theorem store_of_configure {name value : String} {ls : List Layer} {b : Bool} {s t : Stack ls}
    (hs : s.store.faulty = false) (ht : (stackOps ls).configure name value s = .ok (b, t)) :
    t.store = s.store := by
  induction ls generalizing b with
  | nil =>
    have hconf : Store.configure name value s = .ok (false, s) := by
      have hf : Store.faulty s = false := hs
      simp [Store.configure, hf]
    have ht' : Store.configure name value s = .ok (b, t) := ht
    rw [hconf] at ht'
    cases ht'
    rfl
  | cons l ls ih =>
    have hbelow : ∀ {b : Bool} {t : Stack (l :: ls)},
        configureBelow s.1 ((stackOps ls).configure name value s.2) = .ok (b, t) →
          t.store = s.store := fun ht => ih hs (configureBelow_eq_ok ht).2
    cases l with
    | recency =>
      simp only [stackOps, Layer.ops, Recency.ops] at ht
      split at ht
      · obtain ⟨n, -, hn⟩ := bind_eq_ok.1 ht
        obtain ⟨r, -, hr⟩ := bind_eq_ok.1 hn
        cases hr
        rfl
      · exact hbelow ht
    | arrival =>
      simp only [stackOps, Layer.ops, Arrival.ops] at ht
      split at ht
      · obtain ⟨n, -, hn⟩ := bind_eq_ok.1 ht
        cases hn
        rfl
      · exact hbelow ht
    | expiry =>
      simp only [stackOps, Layer.ops, Expiry.ops] at ht
      split at ht
      · obtain ⟨n, -, hn⟩ := bind_eq_ok.1 ht
        cases hn
        rfl
      · exact hbelow ht
    | gate =>
      simp only [stackOps, Layer.ops, Gate.ops] at ht
      split at ht
      · obtain ⟨n, -, hn⟩ := bind_eq_ok.1 ht
        cases hn
        rfl
      · exact hbelow ht
    | copying => exact hbelow ht
    | exclusive => exact hbelow ht
    | counting => exact hbelow ht

namespace Cache

theorem store_of_configure {name value : String} {b : Bool} {c d : Cache}
    (hc : c.store.faulty = false) (hd : ops.configure name value c = .ok (b, d)) :
    d.store = c.store := by
  obtain ⟨ls, s⟩ := c
  simp only [ops] at hd
  generalize hr : (stackOps ls).configure name value s = r at hd
  rcases r with _ | ⟨b', t⟩
  · cases hd
  · cases hd
    exact ResultCache.store_of_configure hc hr

theorem store_of_applyProperties {ps : List (String × String)} {c d : Cache}
    (hc : c.store.faulty = false) (hd : applyProperties ps c = .ok d) : d.store = c.store := by
  induction ps generalizing c with
  | nil =>
    cases hd
    rfl
  | cons p ps ih =>
    obtain ⟨⟨b, e⟩, he, hd⟩ := bind_eq_ok.1 hd
    have hstore := store_of_configure hc he
    rw [← hstore] at hc ⊢
    exact ih hc hd

theorem store_of_addLayers {now : Instant} {r : Registry} {ps : List (String × String)}
    {names : List String} {c d : Cache} (hc : c.store.faulty = false)
    (hd : addLayers now r ps names c = .ok d) : d.store = c.store := by
  induction names generalizing c with
  | nil =>
    cases hd
    rfl
  | cons name names ih =>
    obtain ⟨l, -, hl⟩ := bind_eq_ok.1 hd
    obtain ⟨e, he, hd⟩ := bind_eq_ok.1 hl
    have hwrap : (c.wrap l (l.initial now)).store.faulty = false := hc
    have hstore : e.store = (c.wrap l (l.initial now)).store := store_of_applyProperties hwrap he
    have hcstore : e.store = c.store := hstore
    rw [← hcstore] at hc ⊢
    exact ih hc hd

theorem store_wrapIf (b : Bool) (l : Layer) (state : l.State) (c : Cache) :
    (c.wrapIf b l state).store = c.store := by
  cases b <;> rfl

/-- The layers that follow the configured ones. -/
theorem store_of_surround {now : Instant} {config : Config} {c d : Cache}
    (hc : c.store.faulty = false)
    (hd : (let e := match config.clearInterval with
        | some ms => c.wrap .expiry (Expiry.since now (milliseconds ms))
        | none => c
      let e := ((e.wrapIf config.copies .copying ()).wrap .exclusive ()).wrap .counting Stats.zero
      if config.locks then
        applyProperties config.properties.entries (e.wrap .gate (Gate.ofTimeout none))
      else .ok e) = .ok d) : d.store = c.store := by
  have hinterval : (match config.clearInterval with
      | some ms => c.wrap .expiry (Expiry.since now (milliseconds ms))
      | none => c).store = c.store := by
    split <;> rfl
  dsimp only at hd
  generalize (match config.clearInterval with
      | some ms => c.wrap .expiry (Expiry.since now (milliseconds ms))
      | none => c) = e at hd hinterval
  have hcopies : (e.wrapIf config.copies .copying ()).store = c.store :=
    (store_wrapIf config.copies .copying () e).trans hinterval
  split at hd
  · have hgate := store_of_applyProperties (by exact hcopies ▸ hc) hd
    exact hgate.trans hcopies
  · cases hd
    exact hcopies

theorem store_of_addStandard {now : Instant} {config : Config} {c d : Cache}
    (hc : c.store.faulty = false) (hd : addStandard now config c = .ok d) :
    d.store = c.store := by
  rw [addStandard] at hd
  split at hd
  · obtain ⟨e, he, hd⟩ := bind_eq_ok.1 hd
    generalize hr : ops.configure "size" _ c = r at he
    rcases r with _ | ⟨b, t⟩
    · cases he
    · cases he
      have hstore := store_of_configure hc hr
      rw [← hstore] at hc ⊢
      exact store_of_surround hc hd
  · exact store_of_surround hc hd

/-- The store is made first; its properties are set and the layers laid over it. -/
theorem store_of_lay {now : Instant} {r : Registry} {id store : String} {layers : List String}
    {config : Config} {c : Cache} (hr : r.Plain)
    (hc : (do
      let s ← r.newStore store id
      let c ← applyProperties config.properties.entries (ofStore s)
      if Text.upperAscii store = "PERPETUAL" then
        let c ← addLayers now r config.properties.entries layers c
        addStandard now config c
      else .ok (c.wrap .counting Stats.zero)) = .ok c) : c.store = .perpetual id := by
  obtain ⟨s, hs, hrest⟩ := bind_eq_ok.1 hc
  obtain ⟨d, hd, hlay⟩ := bind_eq_ok.1 hrest
  have hnew : s = .perpetual id := by
    rw [Registry.newStore] at hs
    split at hs
    · rename_i make hmake
      cases hs
      rw [hr _ make hmake]
    · cases hs
    · cases hs
  subst hnew
  have hd' : d.store = .perpetual id := store_of_applyProperties rfl hd
  have hplain : d.store.faulty = false := by rw [hd']; rfl
  split at hlay
  · obtain ⟨e, he, hstandard⟩ := bind_eq_ok.1 hlay
    have he' := store_of_addLayers hplain he
    rw [← he'] at hplain hd'
    exact (store_of_addStandard hplain hstandard).trans hd'
  · cases hlay
    exact hd'

/-- A cache that was built lies over a new perpetual store. -/
theorem build_store {now : Instant} {r : Registry} {id : String} {config : Config} {c : Cache}
    (hr : r.Plain) (hc : build now r id config = .ok c) : c.store = .perpetual id := by
  rw [build] at hc
  split at hc
  exact store_of_lay hr hc

theorem layers_of_applyProperties {ps : List (String × String)} {c d : Cache}
    (hd : applyProperties ps c = .ok d) : d.layers = c.layers := by
  induction ps generalizing c with
  | nil =>
    cases hd
    rfl
  | cons p ps ih =>
    obtain ⟨⟨b, e⟩, he, hd⟩ := bind_eq_ok.1 hd
    have hlayers : e.layers = c.layers := by
      simp only [ops] at he
      generalize (stackOps c.layers).configure p.1 p.2 c.state = r at he
      rcases r with _ | ⟨b', t⟩
      · cases he
      · cases he
        rfl
    exact (ih hd).trans hlayers

theorem copying_of_addStandard {now : Instant} {config : Config} {c d : Cache}
    (hcopies : config.copies = true) (hd : addStandard now config c = .ok d) :
    .copying ∈ d.layers := by
  have hsurround : ∀ e : Cache,
      (if config.locks then applyProperties config.properties.entries
          ((((e.wrapIf config.copies .copying ()).wrap .exclusive ()).wrap .counting
            Stats.zero).wrap .gate (Gate.ofTimeout none))
        else .ok (((e.wrapIf config.copies .copying ()).wrap .exclusive ()).wrap .counting
          Stats.zero)) = .ok d → .copying ∈ d.layers := by
    intro e he
    have hwrap : e.wrapIf config.copies .copying () = e.wrap .copying () := by rw [hcopies]; rfl
    rw [hwrap] at he
    split at he
    · rw [layers_of_applyProperties he]
      simp [wrap]
    · cases he
      simp [wrap]
  rw [addStandard] at hd
  split at hd
  · obtain ⟨e, -, hd⟩ := bind_eq_ok.1 hd
    exact hsurround _ hd
  · exact hsurround _ hd

/-- A cache over the built-in store has the layer that copies if the configuration asks for it. -/
theorem copying_of_build {now : Instant} {r : Registry} {id : String} {config : Config} {c : Cache}
    (hc : build now r id config = .ok c) (hcopies : config.copies = true)
    (hstore : Text.upperAscii (config.store.getD "PERPETUAL") = "PERPETUAL") :
    .copying ∈ c.layers := by
  have hlay : ∀ (store : String) (layers : List String), Text.upperAscii store = "PERPETUAL" →
      (do
        let s ← r.newStore store id
        let c ← applyProperties config.properties.entries (ofStore s)
        if Text.upperAscii store = "PERPETUAL" then
          let c ← addLayers now r config.properties.entries layers c
          addStandard now config c
        else .ok (c.wrap .counting Stats.zero)) = .ok c → .copying ∈ c.layers := by
    intro store layers hstore hc
    obtain ⟨s, -, hs⟩ := bind_eq_ok.1 hc
    obtain ⟨d, -, hd⟩ := bind_eq_ok.1 hs
    rw [if_pos hstore] at hd
    obtain ⟨e, -, he⟩ := bind_eq_ok.1 hd
    exact copying_of_addStandard hcopies he
  rw [build] at hc
  cases hconfig : config.store with
  | none =>
    rw [hconfig] at hc hstore
    exact hlay _ _ hstore hc
  | some store =>
    rw [hconfig] at hc hstore
    exact hlay _ _ hstore hc

end Cache

end ResultCache
