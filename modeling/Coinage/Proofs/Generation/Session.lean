import Coinage.Chance.Twister
import Coinage.Proofs.Generation.Batch
import Coinage.Proofs.Generation.Frame
import Mathlib

/-!
# Sessions

Calls are made one after the other on the same text and the same draws, and a call that fails ends
nothing but itself. Of every call it is known what it leaves of the text, and no call looks at the
text that it finds.
-/

namespace Coinage

variable {ρ : Type}

/-- What can be asked for between two looks at the text. -/
inductive Call where
  | generate (t : Tree)
  | batch (t : Tree) (count : Int)
  | reset

/-- A call that has been made: what it found, what it answered and what it left. -/
structure Turn (ρ : Type) where
  call : Call
  before : Run ρ
  answer : Except Abort (List (List Char))
  after : Run ρ

namespace Turn

def heard (x : Turn ρ) : Except Abort (List (List Char)) × ρ := (x.answer, x.after.draws)

/-- What a call does to the text. A word, or what was written of it before it failed, is added to
the text. A batch leaves its last word, or what was written of the word that failed; it leaves the
text as it was if no word is asked for, or if its tree holds something that is no node. Starting
over leaves no text. -/
def Lawful (x : Turn ρ) : Prop :=
  match x.call, x.answer with
  | .generate _, .ok ws => ∃ w, ws = [w] ∧ x.after.text = x.before.text ++ w
  | .generate _, .error a => x.after.text = x.before.text ++ a.written
  | .batch _ count, .ok ws => ws.length = count.toNat ∧ (count ≤ 0 → x.after = x.before) ∧
      ∀ w ∈ ws.getLast?, x.after.text = w.toArray
  | .batch t _, .error a =>
      if t.isProper then x.after.text = a.written.toArray
      else a = ⟨.notANode, []⟩ ∧ x.after = x.before
  | .reset, answer => answer = .ok [] ∧ x.after = x.before.reset

end Turn

namespace Setting

variable [Draws ρ] (s : Setting)

/-- Makes a call. A single word is answered as a list of one, and starting over answers nothing. -/
def perform : Call → EStateM Abort (Run ρ) (List (List Char))
  | .generate t => do return [← s.generate t]
  | .batch t count => s.generateBatch t count
  | .reset => do modify Run.reset; return []

def turn (c : Call) (r : Run ρ) : Turn ρ :=
  match s.perform c r with
  | .ok ws r' => ⟨c, r, .ok ws, r'⟩
  | .error a r' => ⟨c, r, .error a, r'⟩

/-- Makes the calls one after the other, whether they succeed or fail. -/
def session : List Call → Run ρ → List (Turn ρ)
  | [], _ => []
  | c :: cs, r =>
    let x := s.turn c r
    x :: session cs x.after

@[simp] theorem turn_call (c : Call) (r : Run ρ) : (s.turn c r).call = c := by
  simp only [turn]
  split <;> rfl

@[simp] theorem turn_before (c : Call) (r : Run ρ) : (s.turn c r).before = r := by
  simp only [turn]
  split <;> rfl

@[simp] theorem turn_heard (c : Call) (r : Run ρ) : (s.turn c r).heard = heard (s.perform c r) := by
  simp only [turn]
  split <;> rename_i h <;> rw [h] <;> rfl

section

variable {t : Tree} {count : Int} {r r' : Run ρ}

@[simp] theorem generateBatch_of_not_isProper (ht : ¬ t.isProper = true) :
    (s.generateBatch t count : EStateM Abort (Run ρ) (List (List Char))) =
      throw ⟨.notANode, []⟩ := by
  have hlink : t.link? s.book.slotOf = none := if_neg ht
  funext r
  simp only [generateBatch, hlink]
  rfl

/-- A batch leaves its last word. -/
theorem generateBatch_eq_ok {ws : List (List Char)} (h : s.generateBatch t count r = .ok ws r') :
    ws.length = count.toNat ∧ (count ≤ 0 → r' = r) ∧
      ∀ w ∈ ws.getLast?, r'.text = w.toArray := by
  by_cases ht : t.isProper = true
  · rw [s.generateBatch_eq_rounds ht] at h
    obtain ⟨hlength, hnone, hlast⟩ := rounds_eq_ok h
    refine ⟨hlength, fun hcount => hnone (Int.toNat_of_nonpos hcount), fun w hw => ?_⟩
    obtain ⟨r₁, hword⟩ := hlast w hw
    rw [s.generate_text_of_ok hword]
    simp [Run.reset]
  · rw [s.generateBatch_of_not_isProper ht] at h
    cases h

/-- A batch that fails within a word leaves what was written of the word. -/
theorem generateBatch_eq_error {a : Abort} (ht : t.isProper = true)
    (h : s.generateBatch t count r = .error a r') : r'.text = a.written.toArray := by
  rw [s.generateBatch_eq_rounds ht] at h
  obtain ⟨r₁, hword⟩ := rounds_eq_error h
  rw [s.generate_text_of_error hword]
  simp [Run.reset]

/-- A batch forgets the text before it makes the first word. -/
theorem generateBatch_heard (hd : r'.draws = r.draws) :
    heard (s.generateBatch t count r') = heard (s.generateBatch t count r) := by
  by_cases ht : t.isProper = true
  · rw [s.generateBatch_eq_rounds ht]
    cases count.toNat with
    | zero => exact (Framed.pure []).heard_eq hd
    | succ n =>
      have hreset : r'.reset = r.reset := by simp only [Run.reset, hd]
      rw [rounds_succ_apply, rounds_succ_apply, hreset]
  · rw [s.generateBatch_of_not_isProper ht]
    exact (Framed.throw _).heard_eq hd

end

theorem turn_lawful (c : Call) (r : Run ρ) : (s.turn c r).Lawful := by
  cases c with
  | generate t =>
    cases h : s.generate t r with
    | ok w r' =>
      have hturn : s.turn (.generate t) r = ⟨.generate t, r, .ok [w], r'⟩ := by
        simp only [turn, perform, Bind.bind, EStateM.bind, h]
        rfl
      rw [hturn]
      exact ⟨w, rfl, s.generate_text_of_ok h⟩
    | error a r' =>
      have hturn : s.turn (.generate t) r = ⟨.generate t, r, .error a, r'⟩ := by
        simp only [turn, perform, Bind.bind, EStateM.bind, h]
      rw [hturn]
      exact s.generate_text_of_error h
  | batch t count =>
    simp only [turn, perform]
    cases h : s.generateBatch t count r with
    | ok ws r' => exact s.generateBatch_eq_ok h
    | error a r' =>
      simp only [Turn.Lawful]
      split
      · rename_i ht
        exact s.generateBatch_eq_error ht h
      · rename_i ht
        rw [s.generateBatch_of_not_isProper ht] at h
        cases h
        exact ⟨rfl, rfl⟩
  | reset => exact ⟨rfl, rfl⟩

/-- What a call answers and draws does not depend on the text. -/
theorem perform_heard (c : Call) {r r' : Run ρ} (hd : r'.draws = r.draws) :
    heard (s.perform c r') = heard (s.perform c r) := by
  cases c with
  | generate t => exact ((s.generate_framed t).bind fun w => .pure [w]).heard_eq hd
  | batch t count => exact s.generateBatch_heard hd
  | reset => exact congrArg (fun d => (Except.ok [], d)) hd

theorem eq_turn_of_mem_session {calls : List Call} {r : Run ρ} {x : Turn ρ}
    (hx : x ∈ s.session calls r) : x = s.turn x.call x.before := by
  induction calls generalizing r with
  | nil => cases hx
  | cons c cs ih =>
    obtain rfl | hx := List.mem_cons.mp hx
    · rw [turn_call, turn_before]
    · exact ih hx

theorem session_heard (calls : List Call) {r r' : Run ρ} (hd : r'.draws = r.draws) :
    (s.session calls r').map Turn.heard = (s.session calls r).map Turn.heard := by
  induction calls generalizing r r' with
  | nil => rfl
  | cons c cs ih =>
    have hturn : (s.turn c r').heard = (s.turn c r).heard := by
      rw [turn_heard, turn_heard, s.perform_heard c hd]
    rw [session, session, List.map_cons, List.map_cons, hturn, ih (congrArg Prod.snd hturn)]

/-- The law of the text over whole sessions. Whatever the setting is and whatever calls are made,
those that fail among them, every call leaves the text that it has to leave, and it answers and
draws the same whatever text it finds. So it is with the session: what its calls answer and draw
does not depend on the text at the beginning. -/
theorem sessions_keep_the_text_law (calls : List Call) (r : Run ρ) :
    (∀ x ∈ s.session calls r, x.Lawful ∧
        ∀ text, (s.turn x.call { x.before with text := text }).heard = x.heard) ∧
      ∀ text, (s.session calls { r with text := text }).map Turn.heard =
        (s.session calls r).map Turn.heard := by
  refine ⟨fun x hx => ?_, fun text => s.session_heard calls rfl⟩
  rw [s.eq_turn_of_mem_session hx]
  refine ⟨s.turn_lawful _ _, fun text => ?_⟩
  rw [turn_call, turn_before, turn_heard, turn_heard, s.perform_heard]
  rfl

/-- Words and batches that succeed and fail, starting over, and a batch of none. -/
theorem sessions_keep_the_text_law_mixed :
    let s : Setting := ⟨7, ⟨[], []⟩, 5, none⟩
    let t : Tree := .sequence [.particle ['a'] .once, .particle ['b'] .once] .once
    let u : Tree := .sequence [.particle ['c'] .once, .reference ['w'] .once none] .once
    let calls : List Call :=
      [.generate t, .generate u, .batch t 2, .batch u 3, .batch t 0, .reset]
    let r : Run Twister := .start (.ofSeed 7)
    (s.session calls r).map (fun x => (x.answer, x.after.text)) =
        [(.ok [['a', 'b']], #['a', 'b']),
          (.error ⟨.unknown ['w'], ['c']⟩, #['a', 'b', 'c']),
          (.ok [['a', 'b'], ['a', 'b']], #['a', 'b']),
          (.error ⟨.unknown ['w'], ['c']⟩, #['c']),
          (.ok [], #['c']),
          (.ok [], #[])] ∧
      (∀ x ∈ s.session calls r, x.Lawful) ∧
      (s.session calls { r with text := #['x'] }).map Turn.heard =
        (s.session calls r).map Turn.heard := by
  intro s t u calls r
  obtain ⟨hlaw, hheard⟩ := s.sessions_keep_the_text_law calls r
  refine ⟨?_, fun x hx => (hlaw x hx).1, hheard #['x']⟩
  rfl

end Setting

end Coinage
