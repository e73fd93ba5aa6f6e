import Coinage.Proofs.Results
import Coinage.Proofs.Rulebook.Cycles

/-!
# The search for cycles is recursive depth-first search

Depth-first search as it is usually written: to visit a name is to visit its successors, one after
the other, behind it on the path. The search with a trail of successors not yet tried meets the
names in the same order, so it finds the same cycle.
-/

namespace Coinage

theorem length_unvisited_lt {names path : List Name} {n : Name} (hn : n ∈ names) (hp : n ∉ path) :
    (names.filter (· ∉ path ++ [n])).length < (names.filter (· ∉ path)).length := by
  have hsplit : names.filter (· ∉ path ++ [n]) = (names.filter (· ∉ path)).filter (· ≠ n) := by
    rw [List.filter_filter]
    refine List.filter_congr fun x _ => ?_
    simp [and_comm]
  rw [hsplit]
  exact List.length_filter_lt_length_iff_exists.mpr
    ⟨n, List.mem_filter.mpr ⟨hn, by simpa using hp⟩, by simp⟩

/-- Visits a name behind the path, and tells which names are finished then. A name on the path
closes a cycle, from its place on the path to the end; a finished name is passed over, and so is one
that is not of the graph. -/
def visit (names : List Name) (next : Name → List Name) (path finished : List Name) (n : Name) :
    Except (List Name) (List Name) :=
  if n ∈ path then .error (path.dropWhile (· ≠ n) ++ [n])
  else if n ∈ names ∧ n ∉ finished then do
    let finished ← (next n).foldlM (visit names next (path ++ [n])) finished
    return n :: finished
  else .ok finished
termination_by (names.filter (· ∉ path)).length
decreasing_by
  rename_i hpath hn
  exact length_unvisited_lt hn.1 hpath

/-- The cycle that visiting has met, or else what is found when the given names are finished. -/
def cycleOr (rest : List Name → Option (List Name)) :
    Except (List Name) (List Name) → Option (List Name)
  | .error c => some c
  | .ok finished => rest finished

/-- The first cycle that is met when the names are visited in order. -/
def depthFirst? (names : List Name) (next : Name → List Name) : Option (List Name) :=
  cycleOr (fun _ => none) (names.foldlM (visit names next []) [])

@[simp] theorem cycleOr_error (rest : List Name → Option (List Name)) (c : List Name) :
    cycleOr rest (.error c) = some c := rfl

@[simp] theorem cycleOr_ok (rest : List Name → Option (List Name)) (finished : List Name) :
    cycleOr rest (.ok finished) = rest finished := rfl

theorem cycleOr_bind (rest : List Name → Option (List Name)) (x : Except (List Name) (List Name))
    (f : List Name → Except (List Name) (List Name)) :
    cycleOr rest (x >>= f) = cycleOr (fun finished => cycleOr rest (f finished)) x := by
  cases x with
  | error c => rfl
  | ok finished => rfl

variable {names path finished : List Name} {next : Name → List Name} {n m : Name}

@[simp] theorem visit_of_mem_path (h : n ∈ path) :
    visit names next path finished n = .error (path.dropWhile (· ≠ n) ++ [n]) := by
  rw [visit, if_pos h]

@[simp] theorem visit_of_passed (hp : n ∉ path) (h : n ∈ names → n ∈ finished) :
    visit names next path finished n = .ok finished := by
  rw [visit, if_neg hp, if_neg (by simpa using h)]

theorem visit_of_fresh (hp : n ∉ path) (hn : n ∈ names) (hf : n ∉ finished) :
    visit names next path finished n =
      (next n).foldlM (visit names next (path ++ [n])) finished >>=
        fun done => .ok (n :: done) := by
  rw [visit, if_neg hp, if_pos ⟨hn, hf⟩]
  rfl

theorem subset_of_foldlM {visits : List Name → Name → Except (List Name) (List Name)}
    {done : List Name} (hv : ∀ {a b m}, visits a m = .ok b → a ⊆ b) {ms : List Name}
    (h : ms.foldlM visits finished = .ok done) : finished ⊆ done := by
  induction ms generalizing finished with
  | nil =>
    cases h
    exact List.Subset.refl _
  | cons m ms ih =>
    rw [List.foldlM_cons] at h
    obtain ⟨mid, hm, h⟩ := except_bind_eq_ok.mp h
    exact List.Subset.trans (hv hm) (ih h)

/-- What is finished stays finished. -/
theorem subset_of_visit {done : List Name} (h : visit names next path finished n = .ok done) :
    finished ⊆ done := by
  induction path, finished, n using visit.induct names generalizing done with
  | case1 path finished n hp =>
    rw [visit_of_mem_path hp] at h
    cases h
  | case2 path finished n hp hn ih =>
    rw [visit_of_fresh hp hn.1 hn.2] at h
    obtain ⟨mid, hmid, h⟩ := except_bind_eq_ok.mp h
    cases h
    exact List.subset_cons_of_subset n (subset_of_foldlM (ih _ _) hmid)
  | case3 path finished n hp hn =>
    rw [visit_of_passed hp (by simpa using hn)] at h
    cases h
    exact List.Subset.refl _

/-- A name of the graph that has been visited is finished, and none was on the path. -/
theorem passed_of_visit {done : List Name} (h : visit names next path finished n = .ok done) :
    n ∉ path ∧ (n ∈ names → n ∈ done) := by
  by_cases hp : n ∈ path
  · rw [visit_of_mem_path hp] at h
    cases h
  refine ⟨hp, fun hn => ?_⟩
  by_cases hf : n ∈ finished
  · exact subset_of_visit h hf
  · rw [visit_of_fresh hp hn hf] at h
    obtain ⟨mid, -, h⟩ := except_bind_eq_ok.mp h
    cases h
    exact List.mem_cons_self

/-! ### The trail -/

/-- The names that are neither finished nor on the path. -/
def unseen (names finished path : List Name) : List Name :=
  names.filter fun n => n ∉ finished ∧ n ∉ path

@[simp]
theorem mem_unseen : n ∈ unseen names finished path ↔ n ∈ names ∧ n ∉ finished ∧ n ∉ path := by
  simp [unseen]

theorem unseen_erase (hnd : names.Nodup) :
    (unseen names finished path).erase n = unseen names finished (path ++ [n]) := by
  have hnd' : (unseen names finished path).Nodup := hnd.filter _
  rw [hnd'.erase_eq_filter, unseen, unseen, List.filter_filter]
  refine List.filter_congr fun x _ => ?_
  by_cases hx : x = n <;> simp [hx]

/-- A name that has been visited goes from the path to the finished names. -/
theorem unseen_finish :
    unseen names (n :: finished) path = unseen names finished (path ++ [n]) := by
  refine List.filter_congr fun x _ => ?_
  by_cases hx : x = n <;> simp [hx]

/-- The path is the trail turned around, and so is the cycle that is closed on it. -/
theorem closedCycle_reverse (hp : path.Nodup) (hm : m ∈ path) :
    closedCycle m path.reverse = path.dropWhile (· ≠ m) ++ [m] := by
  obtain ⟨xs, ys, rfl⟩ := List.append_of_mem hm
  obtain ⟨-, hys, hdisj⟩ := List.nodup_append.mp hp
  have hxs : ∀ x ∈ xs, decide (x ≠ m) = true := fun x hx =>
    decide_eq_true (hdisj x hx m List.mem_cons_self)
  have hys : ∀ y ∈ ys.reverse, decide (y ≠ m) = true := by
    intro y hy
    refine decide_eq_true ?_
    rintro rfl
    exact (List.nodup_cons.mp hys).1 (List.mem_reverse.mp hy)
  have htake : (xs ++ m :: ys).reverse.takeWhile (· ≠ m) = ys.reverse := by
    rw [List.reverse_append, List.reverse_cons, List.append_assoc]
    exact takeWhile_append_of_stop hys (by simp)
  have hdrop : (xs ++ m :: ys).dropWhile (· ≠ m) = m :: ys := by
    rw [List.dropWhile_append_of_pos hxs]
    simp
  rw [closedCycle, htake, hdrop, List.reverse_reverse]

/-- With a trail for the path, the search does what visiting the successors not yet tried does, and
goes on with the trail when they are finished. -/
theorem searchCycle_trail (hnd : names.Nodup) {trail : Trail} {ms : List Name} (hp : path.Nodup)
    (htrail : path.reverse = n :: trail.map Prod.fst) :
    searchCycle next (unseen names finished path) ((n, ms) :: trail) =
      cycleOr (fun done => searchCycle next (unseen names done path) trail)
        (ms.foldlM (visit names next path) finished) := by
  -- on the names off the path, of which every visit takes one, and then on the successors
  induction hk : (names.filter (· ∉ path)).length using Nat.strongRecOn
    generalizing path n ms trail finished with
  | ind k ih =>
    induction ms generalizing finished with
    | nil =>
      rw [searchCycle]
      rfl
    | cons m ms ihms =>
      have hmem : m ∈ n :: trail.map Prod.fst ↔ m ∈ path := by
        rw [← htrail, List.mem_reverse]
      rw [List.foldlM_cons, cycleOr_bind, searchCycle]
      by_cases hm : m ∈ path
      · rw [if_neg (fun h => (mem_unseen.mp h).2.2 hm), if_pos (hmem.mpr hm), ← htrail,
          closedCycle_reverse hp hm, visit_of_mem_path hm]
        rfl
      by_cases hfresh : m ∈ unseen names finished path
      · obtain ⟨hn, hf, -⟩ := mem_unseen.mp hfresh
        have hp' : (path ++ [m]).Nodup := by
          simpa [List.nodup_append, hp] using fun a ha (e : a = m) => hm (e ▸ ha)
        have hlt := length_unvisited_lt hn hm
        rw [if_pos hfresh, unseen_erase hnd, visit_of_fresh hm hn hf, cycleOr_bind,
          ih _ (hk ▸ hlt) hp' (by simp [htrail]) rfl]
        refine congrArg (cycleOr · _) (funext fun done => ?_)
        rw [← unseen_finish, ihms]
        rfl
      · have hpass : m ∈ names → m ∈ finished := fun hn => by
          by_contra hf
          exact hfresh (mem_unseen.mpr ⟨hn, hf, hm⟩)
        rw [if_neg hfresh, if_neg (mt hmem.mp hm), visit_of_passed hm hpass, ihms]
        rfl

/-- Where all names in front of it are finished, a name that is not is the first one unseen. -/
theorem unseen_eq_cons {before after : List Name} (hnd : (before ++ n :: after).Nodup)
    (hbefore : ∀ x ∈ before, x ∈ finished) (hn : n ∉ finished) :
    unseen (before ++ n :: after) finished [] =
      n :: unseen (before ++ n :: after) finished [n] := by
  obtain ⟨-, hafter, -⟩ := List.nodup_append.mp hnd
  have hnot : n ∉ after := (List.nodup_cons.mp hafter).1
  have hnil (path : List Name) : before.filter (fun x => x ∉ finished ∧ x ∉ path) = [] :=
    List.filter_eq_nil_iff.mpr fun x hx => by simp [hbefore x hx]
  have hsame : after.filter (fun x => x ∉ finished ∧ x ∉ []) =
      after.filter fun x => x ∉ finished ∧ x ∉ [n] :=
    List.filter_congr fun x hx => by
      have hne : x ≠ n := fun h => hnot (h ▸ hx)
      simp [hne]
  rw [unseen, unseen, List.filter_append, List.filter_append, hnil, hnil,
    List.filter_cons_of_pos (by simp [hn]), List.filter_cons_of_neg (by simp), hsame]
  rfl

/-- Without a trail the search goes on with the names that are left. -/
theorem searchCycle_names {before after : List Name} (hnd : (before ++ after).Nodup)
    (hbefore : ∀ x ∈ before, x ∈ finished) :
    searchCycle next (unseen (before ++ after) finished []) [] =
      cycleOr (fun _ => none) (after.foldlM (visit (before ++ after) next []) finished) := by
  induction after generalizing before finished with
  | nil =>
    have hnil : unseen (before ++ []) finished [] = [] := by
      refine List.filter_eq_nil_iff.mpr fun x hx => ?_
      rw [List.append_nil] at hx
      simp [hbefore x hx]
    rw [hnil, searchCycle]
    rfl
  | cons n after ih =>
    have hmove : before ++ n :: after = (before ++ [n]) ++ after := by simp
    have hgo {done : List Name} (hb : ∀ x ∈ before, x ∈ done) (hn : n ∈ done) :
        searchCycle next (unseen (before ++ n :: after) done []) [] = cycleOr (fun _ => none)
          (after.foldlM (visit (before ++ n :: after) next []) done) := by
      rw [hmove] at hnd ⊢
      exact ih hnd (by simpa [or_imp, forall_and] using ⟨hb, hn⟩)
    rw [List.foldlM_cons, cycleOr_bind]
    by_cases hn : n ∈ finished
    · rw [visit_of_passed (by simp) fun _ => hn, hgo hbefore hn]
      rfl
    · rw [unseen_eq_cons hnd hbefore hn, searchCycle, visit_of_fresh (by simp) (by simp) hn,
        cycleOr_bind, searchCycle_trail hnd (List.nodup_singleton n) rfl]
      cases hdone : (next n).foldlM (visit (before ++ n :: after) next [n]) finished with
      | error c => simp only [List.nil_append, hdone, cycleOr_error]
      | ok done =>
        have hsub : finished ⊆ done := subset_of_foldlM subset_of_visit hdone
        simp only [List.nil_append, hdone, cycleOr_ok]
        rw [← List.nil_append [n], ← unseen_finish,
          hgo (fun x hx => List.mem_cons_of_mem n (hsub (hbefore x hx))) List.mem_cons_self]

/-- The search with a trail finds what visiting the names in order meets first. -/
theorem firstCycle?_eq_depthFirst? (hnd : names.Nodup) :
    firstCycle? names next = depthFirst? names next := by
  have hall : unseen names [] [] = names := List.filter_eq_self.mpr (by simp)
  have h : searchCycle next (unseen ([] ++ names) [] []) [] =
      cycleOr (fun _ => none) (names.foldlM (visit ([] ++ names) next []) []) :=
    searchCycle_names hnd (by simp)
  rwa [List.nil_append, hall] at h

/-! ### Repeated and undefined successors -/

/-- The names of the graph among the successors, in order of first mention. -/
def firstMentions (names : List Name) (next : Name → List Name) (n : Name) : List Name :=
  (next n).eraseDups.filter (· ∈ names)

/-- What visiting has passed over once, it passes over again. -/
theorem foldlM_filter_passed {visits : List Name → Name → Except (List Name) (List Name)}
    (hv : ∀ {a b m}, visits a m = .ok b → a ⊆ b) {done : List Name}
    (hm : ∀ a, done ⊆ a → visits a m = .ok a) (hd : done ⊆ finished) (ms : List Name) :
    (ms.filter fun l => !l == m).foldlM visits finished = ms.foldlM visits finished := by
  induction ms generalizing finished with
  | nil => rfl
  | cons l ms ih =>
    by_cases hl : l = m
    · subst hl
      rw [List.filter_cons_of_neg (by simp), List.foldlM_cons, hm _ hd, ih hd]
      rfl
    · rw [List.filter_cons_of_pos (by simpa using hl), List.foldlM_cons, List.foldlM_cons]
      cases hmid : visits finished l with
      | error c => rfl
      | ok mid => exact ih (List.Subset.trans hd (hv hmid))

/-- Visiting the names of the graph among the successors, each where it is mentioned first, comes to
the same as visiting all successors. -/
theorem foldlM_eraseDups (hpath : path ⊆ names) (ms : List Name) :
    (ms.eraseDups.filter (· ∈ names)).foldlM (visit names next path) finished =
      ms.foldlM (visit names next path) finished := by
  -- on the length, since the names behind a name are filtered first
  induction hk : ms.length using Nat.strongRecOn generalizing ms finished with
  | ind k ih =>
    cases ms with
    | nil => rfl
    | cons m ms =>
      have hlt : (ms.filter fun l => !l == m).length < k := by
        rw [← hk, List.length_cons]
        exact Nat.lt_succ_of_le (List.length_filter_le _ _)
      have hrest {done : List Name} (hm : m ∉ path) (hdone : m ∈ names → m ∈ done) :
          ((ms.filter fun l => !l == m).eraseDups.filter (· ∈ names)).foldlM
              (visit names next path) done = ms.foldlM (visit names next path) done := by
        rw [ih _ hlt _ rfl]
        refine foldlM_filter_passed subset_of_visit (fun a ha => ?_) (List.Subset.refl done) ms
        exact visit_of_passed hm fun hn => ha (hdone hn)
      rw [List.eraseDups_cons, List.foldlM_cons]
      by_cases hn : m ∈ names
      · rw [List.filter_cons_of_pos (by simpa using hn), List.foldlM_cons]
        cases hdone : visit names next path finished m with
        | error c => rfl
        | ok done =>
          obtain ⟨hm, hdone⟩ := passed_of_visit hdone
          exact hrest hm hdone
      · have hm : m ∉ path := fun h => hn (hpath h)
        rw [List.filter_cons_of_neg (by simpa using hn), hrest hm fun h => absurd h hn,
          visit_of_passed hm fun h => absurd h hn]
        rfl

theorem visit_firstMentions (hpath : path ⊆ names) (finished : List Name) (n : Name) :
    visit names (firstMentions names next) path finished n =
      visit names next path finished n := by
  induction path, finished, n using visit.induct names with
  | case1 path finished n hp => rw [visit_of_mem_path hp, visit_of_mem_path hp]
  | case2 path finished n hp hn ih =>
    have hpath' : path ++ [n] ⊆ names :=
      List.append_subset.mpr ⟨hpath, List.cons_subset.mpr ⟨hn.1, List.nil_subset _⟩⟩
    have hsame : visit names (firstMentions names next) (path ++ [n]) =
        visit names next (path ++ [n]) :=
      funext fun done => funext fun m => ih done m hpath'
    rw [visit_of_fresh hp hn.1 hn.2, visit_of_fresh hp hn.1 hn.2, hsame, firstMentions,
      foldlM_eraseDups hpath']
  | case3 path finished n hp hn =>
    have hpass : n ∈ names → n ∈ finished := by simpa using hn
    rw [visit_of_passed hp hpass, visit_of_passed hp hpass]

@[simp] theorem depthFirst?_firstMentions (names : List Name) (next : Name → List Name) :
    depthFirst? names (firstMentions names next) = depthFirst? names next := by
  have hsame : visit names (firstMentions names next) [] = visit names next [] :=
    funext fun done => funext fun m => visit_firstMentions (List.nil_subset _) done m
  rw [depthFirst?, depthFirst?, hsame]

namespace Rulebook

/-- The names of the table that the tree of a name refers to, in order of first mention. -/
def definedReferences (t : Table Name Tree) : Name → List Name :=
  firstMentions t.keys (successors t)

/-- The search for cycles is recursive depth-first search. A table is refused exactly if visiting
its names in order, and behind each name the defined names that it refers to in order of first
mention, meets a name that is on the path; and it is refused with the path from that name to the
end, and the name once more. -/
theorem cycle_search_is_depth_first {t : Table Name Tree} (hn : t.keys.Nodup) :
    firstCycle? t.keys (successors t) = depthFirst? t.keys (definedReferences t) ∧
    (∀ c, ofTable t = .error (.cyclic c) ↔ depthFirst? t.keys (definedReferences t) = some c) ∧
    ((∃ b, ofTable t = .ok b) ↔ depthFirst? t.keys (definedReferences t) = none) := by
  have hsame : firstCycle? t.keys (successors t) = depthFirst? t.keys (definedReferences t) :=
    (firstCycle?_eq_depthFirst? hn).trans (depthFirst?_firstMentions _ _).symm
  refine ⟨hsame, fun c => hsame ▸ ofTable_eq_cyclic_iff, ?_⟩
  rw [← hsame, ofTable]
  cases firstCycle? t.keys (successors t) with
  | none => simp
  | some c => simp

/-- A finished name that two others refer to, a name that is not defined, and a cycle that does not
begin at the first name. -/
theorem cycle_search_is_depth_first_shared :
    let t : Table Name Tree := [
      (['a'], .sequence [.reference ['u'] .once none, .reference ['d'] .once none] .once),
      (['b'], .sequence [.reference ['d'] .once none, .reference ['c'] .once none] .once),
      (['c'], .choice [.reference ['d'] .once none, .reference ['b'] .optional none] .once),
      (['d'], .particle ['x'] .once)]
    t.keys.Nodup ∧ depthFirst? t.keys (definedReferences t) = some [['b'], ['c'], ['b']] ∧
      firstCycle? t.keys (successors t) = some [['b'], ['c'], ['b']] ∧
      ofTable t = .error (.cyclic [['b'], ['c'], ['b']]) := by
  intro t
  have hn : t.keys.Nodup := by decide
  have hvisit : depthFirst? t.keys (definedReferences t) = some [['b'], ['c'], ['b']] := by
    decide +kernel
  obtain ⟨hsame, hcyclic, -⟩ := cycle_search_is_depth_first hn
  exact ⟨hn, hvisit, hsame.trans hvisit, (hcyclic _).mpr hvisit⟩

end Rulebook

end Coinage
