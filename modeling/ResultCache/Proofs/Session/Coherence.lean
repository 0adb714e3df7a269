import ResultCache.Proofs.Session.Diary

/-!
# Shared caches after a change

A session that changed data clears the shared cache when it publishes. After that no rows are left
in it that were published before, so whatever a query is answered with from then on was published by
that session then, or by somebody later (`rows_published_since_change`). There are no versions: a
session that had loaded rows before the change and ends its unit of work after it puts them back
(`rows_loaded_before_change_served`).
-/
namespace ResultCache.System

variable {τ : Type} {env : Nat → Env τ} {S₀ S : System τ} {L : Log}

/-- When a session that changed data has published, a query of any session is answered from the
shared cache only with rows that were published then or since. So they were loaded since, or their
session had loaded them in a unit of work that was still open at that moment, after its own last
change. -/
theorem rows_published_since_change (h₀ : S₀.Blank) (hS : S₀.Diary env L S)
    {after before past : Log} {i j : Nat} {r : CacheRef} {k : Key} {vs : List Value} {bs : Buffers}
    {h h' : Heap}
    (hL : L = after ++ (j, .answers k (some r) vs h') :: (before ++ (i, .publishes bs h) :: past))
    (hclears : Clears r (past.of i)) :
    vs = [] ∨ ∃ (newer : Log) (p : Publication) (older : Log),
      before ++ [(i, .publishes bs h)] = newer ++ p.event :: older ∧ p.Puts r k (older ++ past) ∧
        (p.entry (S₀.coded r)).Shows (.rows vs) h' := by
  have hanswered := ((hS.accounted h₀.sessions).state j).answered
  rw [hL] at hanswered
  refine hanswered.backed.imp And.left ?_
  rintro ⟨e, he, hshows⟩
  have hrows := hshows.bearsRows
  obtain ⟨hhad, -⟩ | ⟨later, p, earlier, hsplit, hp, rfl, hspares⟩ := he.origin hrows
  · rw [h₀.caches r k e hhad] at hrows
    cases hrows
  · rw [Pool.start, List.append_nil] at hp
    have hlate : ∀ mid, later = before ++ (i, .publishes bs h) :: mid →
        past ≠ mid ++ p.event :: earlier := by
      rintro mid hlater rfl
      exact hspares before _ mid hlater bs h rfl (by rwa [Pool.of_start_nil])
    -- a publication that is older than the clearing one would have lost its rows to it
    rw [← List.singleton_append, ← List.append_assoc] at hsplit
    obtain ⟨mid, hmid, hpast⟩ | ⟨mid, hmid, hearlier⟩ := List.append_eq_append_iff.1 hsplit
    · rw [List.append_assoc] at hmid
      exact absurd hpast (hlate mid hmid)
    · obtain ⟨rfl, hpast⟩ | ⟨older, rfl, rfl⟩ := List.cons_eq_append_iff.1 hearlier
      · rw [List.append_nil] at hmid
        exact absurd hpast (hlate [] hmid.symm)
      · exact ⟨later, p, older, hmid, hp, hshows⟩

/-- A data source with one row, which tells how often the data changed. -/
def versioned : DataSource Nat where
  query _ _ _ _ h n := (.ok [.ofList [("n", .int (.ofNat n))]], h, n)
  update _ _ _ h n := (.ok 1, h, n + 1)
  commit n := (.ok (), n)
  rollback n := (.ok (), n)
  close n := n

def versionedEnv : Env Nat := .plain flatHash versioned

def versionedSystem : System Nat :=
  ⟨fun _ => .ofConfig .standard, ⟨.empty, .single (Cache.build 0 .standard "b" .standard), 0, 0⟩⟩

theorem blank_versionedSystem : versionedSystem.Blank :=
  Initial.blank ⟨Heap.sound_empty, fun _ => ⟨.standard, .insertion, rfl⟩, fun r =>
    (Pool.get_single _ r).imp_right fun hr =>
      ⟨0, .standard, "b", .standard, Registry.standard_plain, hr⟩⟩

/-- A session changes the data, loads the row again and commits, and another one gets it. -/
theorem rows_published_since_change_versionedSystem :
    ∃ L S, versionedSystem.Diary (fun _ => versionedEnv) L S ∧
      ∃ h' bs h past vs, L = (1, .answers rowKey (some ⟨0⟩) vs h') :: (0, .publishes bs h) :: past ∧
        Clears ⟨0⟩ (Log.of past 0) ∧ vs.map h'.freeze = [.object [("n", .int 1)]] ∧
        ∃ p : Publication, p.event = (0, .publishes bs h) ∧ p.Puts ⟨0⟩ rowKey past ∧
          (p.entry true).Shows (.rows vs) h' := by
  have hrun : (versionedSystem.logs versionedEnv 1 [.update 0 rowUpdate .null,
      .query 0 rowQuery (.int 1) .unbounded, .commit 0 true,
      .query 1 rowQuery (.int 1) .unbounded] []).map (fun p => p.1.brief) =
        some [(1, .answers rowKey (some ⟨0⟩) [.object [("n", .int 1)]]), (0, .publishes),
          (0, .answers rowKey none [.object [("n", .int 1)]]), (0, .loads rowKey [.object ⟨0⟩]),
          (0, .asks rowKey), (0, .updates ⟨0⟩)] := by decide +kernel
  obtain ⟨L, S, hlogs, hbrief⟩ := exists_log_of_brief hrun
  have hS := (Journal.logs .start hlogs).diary
  obtain ⟨e, rest, hL, he, hrest⟩ := Log.eq_cons_of_brief hbrief
  obtain ⟨e', past, rfl, he', hpast⟩ := Log.eq_cons_of_brief hrest
  obtain ⟨vs, h', rfl, hvs⟩ := Happening.eq_answers he
  obtain ⟨bs, h, rfl⟩ := Happening.eq_publishes he'
  have hclears : Clears ⟨0⟩ (Log.of past 0) := by
    refine clears_of_brief [.answers rowKey none [.object [("n", .int 1)]],
      .loads rowKey [.object ⟨0⟩], .asks rowKey] [] ?_ (by simp)
    rw [Log.map_brief_of, hpast]
    rfl
  have hsplit : L = [] ++ (1, .answers rowKey (some ⟨0⟩) vs h') ::
      ([] ++ (0, .publishes bs h) :: past) := hL
  obtain rfl | ⟨newer, p, older, hnow, hp, hshows⟩ :=
    rows_published_since_change blank_versionedSystem hS hsplit hclears
  · cases hvs
  · obtain ⟨rfl, hnewer⟩ | ⟨_, rfl, hnewer⟩ := List.cons_eq_append_iff.1 hnow
    · obtain ⟨hevent, rfl⟩ := List.cons.inj hnewer
      exact ⟨L, S, hS, h', bs, h, past, vs, hL, hclears, hvs, p, hevent, hp, hshows⟩
    · exact absurd hnewer (by simp)

/-- A session has loaded the row when another one changes the data and commits. It commits too, and
a third session gets the old row. -/
theorem rows_loaded_before_change_served :
    ∃ L S, versionedSystem.Diary (fun _ => versionedEnv) L S ∧
      ∃ h' before bs h past vs,
        L = (2, .answers rowKey (some ⟨0⟩) vs h') :: (before ++ (0, .publishes bs h) :: past) ∧
          Clears ⟨0⟩ (Log.of past 0) ∧ (∀ i k ws, (i, .loads k ws) ∉ before) ∧
          vs.map h'.freeze = [.object [("n", .int 0)]] ∧ S.world.source = 1 := by
  have hrun : (versionedSystem.logs versionedEnv 1 [.query 1 rowQuery (.int 1) .unbounded,
      .update 0 rowUpdate .null, .commit 0 true, .commit 1 true,
      .query 2 rowQuery (.int 1) .unbounded] []).map (fun p => (p.1.brief, p.2.world.source)) =
        some ([(2, .answers rowKey (some ⟨0⟩) [.object [("n", .int 0)]]), (1, .publishes),
          (0, .publishes), (0, .updates ⟨0⟩), (1, .answers rowKey none [.object [("n", .int 0)]]),
          (1, .loads rowKey [.object ⟨0⟩]), (1, .asks rowKey)], 1) := by decide +kernel
  obtain ⟨⟨L, S⟩, hlogs, hboth⟩ := Option.map_eq_some_iff.1 hrun
  obtain ⟨hbrief, hsource⟩ := Prod.mk.inj hboth
  obtain ⟨e, rest, hL, he, hrest⟩ := Log.eq_cons_of_brief hbrief
  obtain ⟨e₁, rest', rfl, he₁, hrest'⟩ := Log.eq_cons_of_brief hrest
  obtain ⟨e₀, past, rfl, he₀, hpast⟩ := Log.eq_cons_of_brief hrest'
  obtain ⟨vs, h', rfl, hvs⟩ := Happening.eq_answers he
  obtain ⟨_, _, rfl⟩ := Happening.eq_publishes he₁
  obtain ⟨bs, h, rfl⟩ := Happening.eq_publishes he₀
  refine ⟨L, S, (Journal.logs .start hlogs).diary, h', [_], bs, h, past, vs, hL, ?_, ?_, hvs, hsource⟩
  · refine clears_of_brief [] [] ?_ (by simp)
    rw [Log.map_brief_of, hpast]
    rfl
  · rintro i k ws hmem
    cases List.mem_singleton.1 hmem

end ResultCache.System
