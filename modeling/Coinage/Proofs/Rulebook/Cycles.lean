import Coinage.Proofs.Graph
import Coinage.Proofs.Lists
import Coinage.Proofs.Table
import Coinage.Proofs.Tree
import Coinage.Rulebook
import Mathlib.Data.List.Nodup

/-!
# The search for cycles is exact

The search finds a cycle of references if there is one, and what it finds is a simple cycle of the
graph. Otherwise the order in which the names were finished ranks them: every reference leads to a
name of lower rank.
-/

namespace Coinage

open Relation

/-- The names that lead back to `m`, innermost first, make up a cycle with the step to `m`. -/
theorem isCycle_closedCycle {R : Name → Name → Prop} {m n : Name} {ns : List Name}
    (hc : (n :: ns).IsChain fun a b => R b a) (hs : R n m) (hm : m ∈ n :: ns)
    (hn : (n :: ns).Nodup) : IsCycle R (closedCycle m (n :: ns)) := by
  obtain ⟨xs, ys, he, hx⟩ := List.eq_append_cons_of_mem hm
  have hw : (n :: ns).takeWhile (· ≠ m) = xs := by
    rw [he]
    refine takeWhile_append_of_stop (fun x hx' => ?_) (by simp)
    simp only [ne_eq, decide_eq_true_eq]
    rintro rfl
    exact hx hx'
  have hcyc : closedCycle m (n :: ns) = (xs ++ [m]).reverse ++ [m] := by
    rw [closedCycle, hw]
    simp
  have hsplit : n :: ns = (xs ++ [m]) ++ ys := by simp [he]
  have hhead : (xs ++ [m]).head? = some n := by
    have h := congrArg List.head? hsplit
    cases xs <;> simp_all
  rw [hcyc]
  refine ⟨by simp, ?_, ?_, ?_⟩
  · rw [List.getLast?_concat]
    simp
  · rw [List.dropLast_concat, List.nodup_reverse]
    rw [hsplit] at hn
    exact (List.nodup_append.mp hn).1
  · rw [hsplit] at hc
    refine List.IsChain.append (List.isChain_reverse.mpr hc.left_of_append) (by simp) ?_
    intro x hx y hy
    rw [List.getLast?_reverse, hhead] at hx
    cases hx
    cases hy
    exact hs

/-- A step of the search: to a successor that is one of the names. -/
def Leads (names : List Name) (next : Name → List Name) (a b : Name) : Prop :=
  b ∈ next a ∧ b ∈ names

/-- What is known of the names on a trail: the successors not yet tried are successors; the name
`ahead`, which was entered from the first of them, is one; every other one is finished. -/
def Followed (names : List Name) (next : Name → List Name) (done : List Name) :
    Option Name → Trail → Prop
  | _, [] => True
  | ahead, (n, ms) :: trail =>
    (∀ m ∈ ms, m ∈ next n) ∧ (∀ m ∈ ahead, Leads names next n m) ∧
      (∀ m, Leads names next n m → m ∈ ms ∨ m ∈ done ∨ m ∈ ahead) ∧
      Followed names next done (some n) trail

/-- The state of the search: every name is fresh, on the trail or finished, and the finished names
stand before all their successors, last finished first. -/
structure Searching (names : List Name) (next : Name → List Name) (fresh : List Name)
    (trail : Trail) (done : List Name) : Prop where
  all : (fresh ++ (trail.map Prod.fst ++ done)).Perm names
  settled : Settled (Leads names next) done
  followed : Followed names next done none trail

variable {names : List Name} {next : Name → List Name}

theorem Followed.mono {done done' : List Name} {ahead : Option Name} {trail : Trail}
    (h : Followed names next done ahead trail) (hd : done ⊆ done') :
    Followed names next done' ahead trail := by
  induction trail generalizing ahead with
  | nil => trivial
  | cons e trail ih =>
    obtain ⟨hms, ha, hm, h⟩ := h
    exact ⟨hms, ha, fun m hl => (hm m hl).imp_right (Or.imp_left (hd ·)), ih h⟩

/-- Every name on a trail leads to the one that was entered from it. -/
theorem Followed.isChain {done : List Name} {ahead : Option Name} {trail : Trail}
    (h : Followed names next done ahead trail) :
    (trail.map Prod.fst).IsChain fun a b => Leads names next b a := by
  induction trail generalizing ahead with
  | nil => exact .nil
  | cons e trail ih =>
    obtain ⟨-, -, -, h⟩ := h
    cases trail with
    | nil => exact .singleton _
    | cons e' trail => exact .cons_cons (h.2.1 _ rfl) (ih h)

namespace Searching

variable {fresh done : List Name} {trail : Trail} {n m : Name} {ms : List Name}

theorem start : Searching names next names [] [] :=
  ⟨by simp, trivial, trivial⟩

theorem enter (h : Searching names next (n :: fresh) [] done) :
    Searching names next fresh [(n, next n)] done := by
  refine ⟨?_, h.settled, fun _ hm => hm, by simp, fun m hm => .inl hm.1, trivial⟩
  exact List.perm_middle.trans h.all

theorem finish (h : Searching names next fresh ((n, []) :: trail) done) :
    Searching names next fresh trail (n :: done) := by
  obtain ⟨hall, hset, -, -, hn, hf⟩ := h
  refine ⟨?_, ⟨fun m hm => by simpa using hn m hm, hset⟩, ?_⟩
  · exact ((List.Perm.append_left _ List.perm_middle).trans (by simp)).trans hall
  · cases trail with
    | nil => trivial
    | cons e trail =>
      obtain ⟨hms, -, hm, hf⟩ := hf
      refine ⟨hms, by simp, fun m hl => ?_, hf.mono (List.subset_cons_self _ _)⟩
      rcases hm m hl with hm | hm | hm
      · exact .inl hm
      · exact .inr (.inl (List.mem_cons_of_mem _ hm))
      · cases hm
        exact .inr (.inl List.mem_cons_self)

theorem push (h : Searching names next fresh ((n, m :: ms) :: trail) done) (hm : m ∈ fresh) :
    Searching names next (fresh.erase m) ((m, next m) :: (n, ms) :: trail) done := by
  obtain ⟨hall, hset, hms, -, hn, hf⟩ := h
  have hmn : m ∈ names := hall.subset (List.mem_append_left _ hm)
  refine ⟨?_, hset, fun _ hl => hl, by simp, fun _ hl => .inl hl.1, ?_⟩
  · refine List.Perm.trans ?_ hall
    simpa using List.perm_middle.trans ((List.perm_cons_erase hm).symm.append_right _)
  · refine ⟨fun l hl => hms l (List.mem_cons_of_mem _ hl), ?_, fun l hl => ?_, hf⟩
    · rintro l ⟨⟩
      exact ⟨hms m List.mem_cons_self, hmn⟩
    · rcases hn l hl with hl | hl | hl
      · rcases List.mem_cons.mp hl with rfl | hl
        · exact .inr (.inr rfl)
        · exact .inl hl
      · exact .inr (.inl hl)
      · cases hl

theorem skip (h : Searching names next fresh ((n, m :: ms) :: trail) done) (hm : m ∉ fresh)
    (hm' : m ∉ n :: trail.map Prod.fst) : Searching names next fresh ((n, ms) :: trail) done := by
  obtain ⟨hall, hset, hms, -, hn, hf⟩ := h
  refine ⟨hall, hset, fun l hl => hms l (List.mem_cons_of_mem _ hl), by simp, fun l hl => ?_, hf⟩
  rcases hn l hl with hl' | hl' | hl'
  · rcases List.mem_cons.mp hl' with rfl | hl'
    · have hmem := hall.symm.subset hl.2
      rcases List.mem_append.mp hmem with h | h
      · exact absurd h hm
      · exact .inr (.inl ((List.mem_append.mp h).resolve_left hm'))
    · exact .inl hl'
  · exact .inr (.inl hl')
  · cases hl'

/-- The step that closes a cycle is one of the graph. -/
theorem leads (h : Searching names next fresh ((n, m :: ms) :: trail) done)
    (hm : m ∈ n :: trail.map Prod.fst) : Leads names next n m :=
  ⟨h.followed.1 m List.mem_cons_self,
    h.all.subset (List.mem_append_right _ (List.mem_append_left _ hm))⟩

/-- The trail leads from a name on it to the last one, and the step leads back. -/
theorem transGen (h : Searching names next fresh ((n, m :: ms) :: trail) done)
    (hm : m ∈ n :: trail.map Prod.fst) : TransGen (Leads names next) m m :=
  .tail' (reflTransGen_head h.followed.isChain m hm) (h.leads hm)

theorem isCycle (h : Searching names next fresh ((n, m :: ms) :: trail) done)
    (hm : m ∈ n :: trail.map Prod.fst) (hnd : names.Nodup) :
    IsCycle (Leads names next) (closedCycle m (n :: trail.map Prod.fst)) := by
  have hn := (h.all.nodup_iff.mpr hnd)
  exact isCycle_closedCycle h.followed.isChain (h.leads hm) hm
    (List.nodup_append.mp (List.nodup_append.mp hn).2.1).1

/-- The search ends with a cycle, or with all names finished. What it finds is a simple cycle if no
name stands twice among the names. -/
theorem result (h : Searching names next fresh trail done) :
    (∀ c, searchCycle next fresh trail = some c →
      (∃ a, TransGen (Leads names next) a a) ∧ (names.Nodup → IsCycle (Leads names next) c)) ∧
    (searchCycle next fresh trail = none →
      ∃ l : List Name, l.Perm names ∧ Settled (Leads names next) l) := by
  induction fresh, trail using searchCycle.induct next generalizing done with
  | case1 =>
    simp only [searchCycle]
    exact ⟨by simp, fun _ => ⟨done, by simpa using h.all, h.settled⟩⟩
  | case2 n fresh ih =>
    rw [searchCycle]
    exact ih h.enter
  | case3 fresh n trail ih =>
    rw [searchCycle]
    exact ih h.finish
  | case4 fresh n m ms trail hm ih =>
    rw [searchCycle, if_pos hm]
    exact ih (h.push hm)
  | case5 fresh n m ms trail hm hm' =>
    rw [searchCycle, if_neg hm, if_pos hm']
    refine ⟨?_, by simp⟩
    rintro c ⟨⟩
    exact ⟨⟨m, h.transGen hm'⟩, h.isCycle hm'⟩
  | case6 fresh n m ms trail hm hm' ih =>
    rw [searchCycle, if_neg hm, if_neg hm']
    exact ih (h.skip hm hm')

end Searching

namespace Rulebook

/-- The graph of a table: the tree of `a` mentions `b`, which is a key of the table. -/
def Refers (t : Table Name Tree) (a b : Name) : Prop :=
  (∃ u, t.get? a = some u ∧ u.Mentions b) ∧ b ∈ t.keys

@[simp] theorem leads_eq_refers (t : Table Name Tree) : Leads t.keys (successors t) = Refers t := by
  funext a b
  simp only [Leads, Refers, successors]
  cases h : t.get? a with
  | none => simp
  | some u => simp

@[simp] theorem ofTable_eq_cyclic_iff {t : Table Name Tree} {c : List Name} :
    ofTable t = .error (.cyclic c) ↔ firstCycle? t.keys (successors t) = some c := by
  simp only [ofTable]
  cases firstCycle? t.keys (successors t) with
  | none => simp
  | some c' => simp

/-- Where no cycle is found, every name has a rank above those of the names it refers to, and there
are no more ranks than names. -/
theorem exists_rank_of_firstCycle? {t : Table Name Tree}
    (h : firstCycle? t.keys (successors t) = none) :
    ∃ rank : Name → Nat, (∀ a, rank a ≤ t.length - 1) ∧ ∀ a b, Refers t a b → rank b < rank a := by
  have hstart : Searching t.keys (successors t) t.keys [] [] := .start
  obtain ⟨l, hl, hs⟩ := hstart.result.2 h
  rw [leads_eq_refers] at hs
  refine ⟨fun a => rankIn l a - 1, fun a => ?_, fun a b hab => ?_⟩
  · have hlen : l.length = t.length := by simpa [Table.keys] using hl.length_eq
    exact hlen ▸ Nat.sub_le_sub_right (rankIn_le_length l a) 1
  · obtain ⟨u, hu, -⟩ := hab.1
    have ha : a ∈ l := hl.symm.subset (Table.mem_keys_iff.mpr ⟨u, hu⟩)
    have hlt : rankIn l b < rankIn l a := hs.rankIn_lt ha hab
    exact Nat.sub_lt_sub_right (rankIn_pos (List.ne_nil_of_mem ha) b) hlt

theorem isCycle_of_firstCycle? {t : Table Name Tree} {c : List Name} (hn : t.keys.Nodup)
    (h : firstCycle? t.keys (successors t) = some c) : IsCycle (Refers t) c := by
  rw [← leads_eq_refers]
  exact (Searching.start.result.1 c h).2 hn

/-- The search finds a cycle if there is one, even where names stand in the table twice. -/
@[simp] theorem exists_firstCycle?_iff {t : Table Name Tree} :
    (∃ c, firstCycle? t.keys (successors t) = some c) ↔ ∃ a, TransGen (Refers t) a a := by
  constructor
  · rintro ⟨c, hc⟩
    rw [← leads_eq_refers]
    exact (Searching.start.result.1 c hc).1
  · rintro ⟨a, ha⟩
    refine Option.ne_none_iff_exists'.mp fun hnone => ?_
    obtain ⟨rank, -, hr⟩ := exists_rank_of_firstCycle? hnone
    exact Nat.lt_irrefl _ (rank_lt_of_transGen hr ha)

/-- The search is exact. It finds a cycle if and only if the graph of the table has one, and then
the table is refused with that cycle; what it finds is a simple cycle of the graph through keys of
the table; and where it finds none, the names have ranks that fall along every reference. -/
theorem cycle_search_exact {t : Table Name Tree} (hn : t.keys.Nodup) :
    ((∃ c, firstCycle? t.keys (successors t) = some c) ↔ ∃ a, TransGen (Refers t) a a) ∧
    (∀ c, ofTable t = .error (.cyclic c) ↔ firstCycle? t.keys (successors t) = some c) ∧
    (∀ c, firstCycle? t.keys (successors t) = some c →
      IsCycle (Refers t) c ∧ ∀ x ∈ c, x ∈ t.keys) ∧
    (firstCycle? t.keys (successors t) = none →
      ∃ rank : Name → Nat, ∀ a b, Refers t a b → rank b < rank a) := by
  refine ⟨⟨?_, ?_⟩, fun c => ofTable_eq_cyclic_iff, fun c hc => ?_, fun hnone => ?_⟩
  · rintro ⟨c, hc⟩
    exact (isCycle_of_firstCycle? hn hc).exists_transGen
  · rintro ⟨a, ha⟩
    refine Option.ne_none_iff_exists'.mp fun hnone => ?_
    obtain ⟨rank, -, hr⟩ := exists_rank_of_firstCycle? hnone
    exact Nat.lt_irrefl _ (rank_lt_of_transGen hr ha)
  · have h := isCycle_of_firstCycle? hn hc
    exact ⟨h, h.forall_mem fun _ _ hab => hab.2⟩
  · obtain ⟨rank, -, hr⟩ := exists_rank_of_firstCycle? hnone
    exact ⟨rank, hr⟩

/-- Two productions that refer to each other, one of them under bounds that never run it. -/
theorem cycle_search_exact_pair :
    let t : Table Name Tree := [(['a'], .reference ['b'] ⟨0, 0⟩ none),
      (['b'], .choice [.particle ['x'] .once, .reference ['a'] .once none] .once)]
    t.keys.Nodup ∧ ∃ c, firstCycle? t.keys (successors t) = some c ∧ IsCycle (Refers t) c := by
  intro t
  have hn : t.keys.Nodup := by decide
  have hab : Refers t ['a'] ['b'] := ⟨⟨_, rfl, .reference⟩, by decide⟩
  have hba : Refers t ['b'] ['a'] := ⟨⟨_, rfl, .choice (.tail _ (.head _)) .reference⟩, by decide⟩
  obtain ⟨hfound, -, hsound, -⟩ := cycle_search_exact hn
  obtain ⟨c, hc⟩ := hfound.mpr ⟨['a'], .tail (.single hab) hba⟩
  exact ⟨hn, c, hc, (hsound c hc).1⟩

end Rulebook

end Coinage
