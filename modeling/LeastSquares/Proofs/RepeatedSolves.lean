import LeastSquares.Arith.Float
import LeastSquares.Proofs.CheckedRun
import LeastSquares.Proofs.SurvivingTriangle
import LeastSquares.Proofs.Workspaces

namespace LeastSquares

open Checked

variable {α : Type} {m m' n : Nat}

namespace Checked

/-- A call that works on a factor in its own storage, with the buffers that it is given. -/
inductive FactorCall (α : Type)
  | solveDamped (scaling b solution row permuted : Array α)
  | search (p : Subproblem α) (estimate : α) (step : Array α) (memory : SearchMemory α)

inductive FactorAnswer (α : Type)
  | solved (solution : DampedSolution α)
  | searched (outcome : SearchOutcome α)

def FactorAnswer.factor : FactorAnswer α → Factor α
  | .solved solution => solution.factor
  | .searched outcome => outcome.factor

/-- Whether two answers give the same. A damped solve gives the strict lower triangle also, a search
only what it returns. -/
inductive FactorAnswer.Agrees : FactorAnswer α → FactorAnswer α → Prop
  | solved {d d' : DampedSolution α} (solution : d'.solution = d.solution)
    (diagonal : d'.diagonal = d.diagonal)
    (lower : ∀ i j, j < i → d'.factor.entry i j = d.factor.entry i j) :
    Agrees (.solved d) (.solved d')
  | searched {out out' : SearchOutcome α} (damping : out'.damping = out.damping)
    (passes : out'.passes = out.passes) (step : out'.step = out.step) :
    Agrees (.searched out) (.searched out')

namespace FactorCall

/-- Whether the arguments have the right lengths for a factor of size `n`. The buffers of a search
may have any size. -/
def Fits (n : Nat) : FactorCall α → Prop
  | .solveDamped scaling b solution row permuted =>
    scaling.size = n ∧ b.size = n ∧ solution.size = n ∧ row.size = n ∧ permuted.size = n
  | .search p _ step memory =>
    p.scaling.size = n ∧ p.projected.size = n ∧ step.size = n ∧ memory.Coherent

inductive SameArguments : FactorCall α → FactorCall α → Prop
  | solveDamped (scaling b solution row permuted solution' row' permuted' : Array α) :
    SameArguments (.solveDamped scaling b solution row permuted)
      (.solveDamped scaling b solution' row' permuted')
  | search (p : Subproblem α) (estimate : α) (step step' : Array α)
    (memory memory' : SearchMemory α) :
    SameArguments (.search p estimate step memory) (.search p estimate step' memory')

variable [Scalar α]

def perform (f : Factor α) : FactorCall α → Except Fault (FactorAnswer α)
  | .solveDamped scaling b solution row permuted => do
    return .solved (← f.solveDamped scaling b solution row permuted)
  | .search p estimate step memory => do
    return .searched (← p.search f estimate step memory)

def performAll (f : Factor α) : List (FactorCall α) → Except Fault (List (FactorAnswer α))
  | [] => .ok []
  | call :: calls => do
    let answer ← call.perform f
    let answers ← performAll answer.factor calls
    return answer :: answers

end FactorCall

end Checked

instance : CanLift (Array α) (Vec α n) Vec.toArray fun xs => xs.size = n where
  prf xs h := ⟨⟨⟨xs, h⟩⟩, rfl⟩

instance : CanLift (Checked.Subproblem α) (Subproblem α n) Subproblem.stored
    fun p => p.scaling.size = n ∧ p.projected.size = n where
  prf p h := ⟨⟨⟨⟨p.scaling, h.1⟩⟩, ⟨⟨p.projected, h.2⟩⟩, p.radius, p.tuning⟩, rfl⟩

/-- Buffers of any one size stand for some of the right size, since a search replaces them. -/
theorem SearchMemory.Coherent.exists_ofBuffers [Scalar α] {s : SearchMemory α} (h : s.Coherent)
    (n : Nat) : ∃ b : SearchBuffers α n, s.resized n = .ofBuffers b := by
  obtain ⟨coherent, size⟩ := h.resized n
  obtain ⟨b, hb⟩ := coherent.exists_buffers? n
  exact ⟨b, SearchMemory.eq_ofBuffers size hb⟩

/-- Factors with one working matrix have the same entries, and the same faults outside. -/
theorem Triangular.entry_congr {f : Triangular α m n} {f' : Triangular α m' n}
    (h : f'.square = f.square) (i j : Nat) : f'.stored.entry i j = f.stored.entry i j := by
  by_cases hi : i < n
  · by_cases hj : j < n
    · have entry := f.entry_stored ⟨i, hi⟩ ⟨j, hj⟩
      have entry' := f'.entry_stored ⟨i, hi⟩ ⟨j, hj⟩
      rw [h] at entry'
      exact entry'.trans entry.symm
    · have outside {k : Nat} (g : Triangular α k n) :
          g.stored.entry i j = .error .indexOutOfBounds := by
        unfold Checked.Factor.entry
        refine (bind_of_ok (require_of hi _) _).trans ?_
        exact dif_neg fun hij => hj hij.2
      rw [outside, outside]
  · have outside {k : Nat} (g : Triangular α k n) :
        g.stored.entry i j = .error .rowOutOfBounds :=
      bind_of_error (require_of_not hi _) _
    rw [outside, outside]

def DampedSolution.stored (d : DampedSolution α m n) : Checked.DampedSolution α where
  factor := d.factor.stored
  solution := d.solution.toArray
  diagonal := d.diagonal.toArray
  permuted := d.permuted.toArray

theorem Checked.Subproblem.search_congr [Scalar α] {p : Checked.Subproblem α} {f : Factor α}
    {estimate : α} {step : Array α} {memory memory' : SearchMemory α}
    (h : memory.resized f.size = memory'.resized f.size) :
    p.search f estimate step memory = p.search f estimate step memory' := by
  unfold Checked.Subproblem.search
  dsimp only
  rw [h]

namespace Checked.FactorCall

variable [Scalar α] {call call' : FactorCall α} {f : Triangular α m n} {f' : Triangular α m' n}

omit [Scalar α] in
theorem SameArguments.refl (call : FactorCall α) : call.SameArguments call := by
  cases call
  · exact .solveDamped ..
  · exact .search ..

theorem perform_solveDamped (f : Triangular α m n) (scaling b solution row permuted : Vec α n) :
    (solveDamped scaling.toArray b.toArray solution.toArray row.toArray permuted.toArray).perform
      f.stored = .ok (.solved (f.solveDamped scaling b row).stored) :=
  bind_of_ok (f.solveDamped_stored scaling b solution row permuted) _

theorem perform_search (p : LeastSquares.Subproblem α n) (f : Triangular α m n) (estimate : α)
    (step : Vec α n) {memory : SearchMemory α} {buffers : SearchBuffers α n}
    (h : memory.resized n = .ofBuffers buffers) :
    (search p.stored estimate step.toArray memory).perform f.stored =
      .ok (.searched (p.search f estimate step buffers).stored) := by
  refine bind_of_ok (Eq.trans ?_ (p.search_stored f estimate step buffers)) _
  refine Subproblem.search_congr ?_
  exact h.trans (SearchMemory.resized_ofBuffers buffers).symm

/-- Calls with the same arguments on factors with the same triangle succeed and give the same. -/
theorem SameArguments.exists_answers (same : call.SameArguments call') (fits : call.Fits n)
    (fits' : call'.Fits n) (triangle : f.SameTriangle f')
    (permutation : Function.Injective f.permutation.get) :
    ∃ (answer fresh : FactorAnswer α) (g : Triangular α m n),
      call.perform f.stored = .ok answer ∧ call'.perform f'.stored = .ok fresh ∧
        answer.Agrees fresh ∧ answer.factor = g.stored ∧ f.Keeps g := by
  cases same with
  | solveDamped scaling b solution row permuted solution' row' permuted' =>
    obtain ⟨hscaling, hb, hsolution, hrow, hpermuted⟩ := fits
    obtain ⟨-, -, hsolution', hrow', hpermuted'⟩ := fits'
    lift scaling to Vec α n using hscaling
    lift b to Vec α n using hb
    lift solution to Vec α n using hsolution
    lift row to Vec α n using hrow
    lift permuted to Vec α n using hpermuted
    lift solution' to Vec α n using hsolution'
    lift row' to Vec α n using hrow'
    lift permuted' to Vec α n using hpermuted'
    have agrees := triangle.solveDamped scaling b row row'
    refine ⟨_, _, _, perform_solveDamped f scaling b solution row permuted,
      perform_solveDamped f' scaling b solution' row' permuted', ?_, rfl,
      f.keeps_solveDamped scaling b row⟩
    exact .solved (congrArg Vec.toArray agrees.solution) (congrArg Vec.toArray agrees.diagonal)
      fun i j _ => Triangular.entry_congr agrees.square i j
  | search p estimate step step' memory memory' =>
    obtain ⟨hscaling, hprojected, hstep, coherent⟩ := fits
    obtain ⟨-, -, hstep', coherent'⟩ := fits'
    lift p to LeastSquares.Subproblem α n using ⟨hscaling, hprojected⟩
    lift step to Vec α n using hstep
    lift step' to Vec α n using hstep'
    obtain ⟨buffers, resized⟩ := coherent.exists_ofBuffers n
    obtain ⟨buffers', resized'⟩ := coherent'.exists_ofBuffers n
    have result := p.search_sameResult triangle permutation estimate step step' buffers buffers'
    exact ⟨_, _, _, perform_search p f estimate step resized,
      perform_search p f' estimate step' resized',
      .searched result.damping result.passes (congrArg Vec.toArray result.step), rfl,
      p.keeps_search f estimate step buffers⟩

/-- Calls on one factor, in any order, succeed and leave the triangle, the permutation and the rows
below the square as they were. Each one gives what it gives on any factor with the same triangle and
permutation, with other contents below the diagonal and in its buffers: the solution, the diagonal
and the strict lower triangle that a damped solve leaves, and the damping, the number of passes and
the step of a search. -/
theorem performAll_as_on_fresh_factors (f : Triangular α m n)
    (permutation : Function.Injective f.permutation.get) (calls : List (FactorCall α))
    (fits : ∀ call ∈ calls, call.Fits n) :
    ∃ answers, performAll f.stored calls = .ok answers ∧
      (∀ answer ∈ answers, ∃ g : Triangular α m n, answer.factor = g.stored ∧ f.Keeps g) ∧
      ∀ (m' : Nat) (f' : Triangular α m' n), f.SameTriangle f' →
        ∀ calls', calls.Forall₂ SameArguments calls' → (∀ call ∈ calls', call.Fits n) →
          calls'.Forall₂
            (fun call answer => ∃ fresh, call.perform f'.stored = .ok fresh ∧ answer.Agrees fresh)
            answers := by
  induction calls generalizing f with
  | nil =>
    refine ⟨[], rfl, fun _ h => absurd h List.not_mem_nil, fun m' f' _ calls' same _ => ?_⟩
    cases same
    exact .nil
  | cons call calls ih =>
    obtain ⟨fits_call, fits_calls⟩ := List.forall_mem_cons.mp fits
    obtain ⟨answer, -, g, performed, -, -, factor, kept⟩ :=
      (SameArguments.refl call).exists_answers fits_call fits_call (.refl f) permutation
    have permutation_g : Function.Injective g.permutation.get := by
      rw [kept.permutation]
      exact permutation
    obtain ⟨answers, performed_rest, kept_rest, fresh_rest⟩ := ih g permutation_g fits_calls
    refine ⟨answer :: answers, ?_, ?_, ?_⟩
    · refine (bind_of_ok performed _).trans ?_
      rw [factor]
      exact bind_of_ok performed_rest _
    · refine List.forall_mem_cons.mpr ⟨⟨g, factor, kept⟩, fun later h => ?_⟩
      obtain ⟨g', factor', kept'⟩ := kept_rest later h
      exact ⟨g', factor', kept.trans kept'⟩
    · intro m' f' triangle calls' same fits'
      cases same with
      | cons same_call same_calls =>
        obtain ⟨fits_call', fits_calls'⟩ := List.forall_mem_cons.mp fits'
        obtain ⟨answer', fresh, -, performed', performed_fresh, agrees, -, -⟩ :=
          same_call.exists_answers fits_call fits_call' triangle permutation
        obtain rfl := Except.ok.inj (performed.symm.trans performed')
        exact .cons ⟨fresh, performed_fresh, agrees⟩
          (fresh_rest m' f' (kept.sameTriangle.symm.trans triangle) _ same_calls fits_calls')

/-- In doubles, two damped solves and a search between them, on a factor with exchanged columns and
full storage, with buffers of another size for the search. -/
theorem performAll_exchanged_as_on_fresh_factors :
    let f : Triangular Float 3 2 :=
      ⟨.ofFn fun i j => .ofNat (i + 2 * j + 1), .ofFn Fin.rev, by decide⟩
    let p : Subproblem Float :=
      { scaling := #[1, 2], projected := #[3, 4], radius := 0.5, tuning := .standard }
    let calls : List (FactorCall Float) :=
      [.solveDamped #[1, 0] #[5, 6] #[7, 7] #[8, 8] #[9, 9], .search p 0 #[7, 7] (.zeros 5),
        .solveDamped #[0, 1] #[5, 6] #[7, 7] #[8, 8] #[9, 9]]
    Function.Injective f.permutation.get ∧ (∀ call ∈ calls, call.Fits 2) ∧
      ∃ answers, performAll f.stored calls = .ok answers ∧
        (∀ answer ∈ answers, ∃ g : Triangular Float 3 2, answer.factor = g.stored ∧ f.Keeps g) ∧
        ∀ (m' : Nat) (f' : Triangular Float m' 2), f.SameTriangle f' →
          ∀ calls', calls.Forall₂ SameArguments calls' → (∀ call ∈ calls', call.Fits 2) →
            calls'.Forall₂
              (fun call answer => ∃ fresh, call.perform f'.stored = .ok fresh ∧ answer.Agrees fresh)
              answers := by
  intro f p calls
  have permutation : Function.Injective f.permutation.get := by
    rw [show f.permutation.get = Fin.rev from funext (Vec.ofFn_apply _)]
    exact Fin.rev_injective
  have fits : ∀ call ∈ calls, call.Fits 2 := by
    intro call h
    rcases List.mem_cons.mp h with rfl | h
    · exact ⟨rfl, rfl, rfl, rfl, rfl⟩
    rcases List.mem_cons.mp h with rfl | h
    · exact ⟨rfl, rfl, rfl, SearchMemory.coherent_zeros 5⟩
    obtain rfl := List.mem_singleton.mp h
    exact ⟨rfl, rfl, rfl, rfl, rfl⟩
  exact ⟨permutation, fits, performAll_as_on_fresh_factors f permutation calls fits⟩

end Checked.FactorCall

end LeastSquares
