import Mathlib.Data.List.Basic

/-!
# Runs of a step function

A component is a state type, an input type and a step function; a run is the fold of the
step over the inputs. `Along` says that every input of a run meets a condition in the state
it arrives in, and `Along.invariant` is the one induction every safety result over runs
uses.
-/

namespace Run

variable {σ ι : Type*} {step : σ → ι → σ} {ok : σ → ι → Prop} {Inv : σ → Prop}

/-- The state a run from `s` ends in. -/
def final (step : σ → ι → σ) (s : σ) (is : List ι) : σ := is.foldl step s

@[simp] theorem final_nil (s : σ) : final step s [] = s := rfl

@[simp] theorem final_cons (s : σ) (i : ι) (is : List ι) :
    final step s (i :: is) = final step (step s i) is := rfl

theorem final_append (s : σ) (is js : List ι) :
    final step s (is ++ js) = final step (final step s is) js := by
  simp [final]

/-- A record with one more entry splits at the new one or before it. -/
theorem concat_eq_split {α : Type*} {l pre post : List α} {c d : α}
    (h : l ++ [c] = pre ++ d :: post) : (l = pre ∧ c = d) ∨ ∃ post', l = pre ++ d :: post' := by
  rcases List.eq_nil_or_concat post with rfl | ⟨post', e, rfl⟩
  · exact .inl (List.append_singleton_inj.mp h)
  · rw [List.concat_eq_append, ← List.cons_append, ← List.append_assoc] at h
    exact .inr ⟨post', (List.append_singleton_inj.mp h).1⟩

/-- Every input of the run from `s` meets `ok` in the state it arrives in. -/
def Along (step : σ → ι → σ) (ok : σ → ι → Prop) : σ → List ι → Prop
  | _, [] => True
  | s, i :: is => ok s i ∧ Along step ok (step s i) is

instance decidableAlong [h : ∀ s i, Decidable (ok s i)] :
    ∀ s is, Decidable (Along step ok s is)
  | _, [] => .isTrue trivial
  | s, i :: is => @instDecidableAnd _ _ (h s i) (decidableAlong (step s i) is)

/-- A run splits: the condition holds along it exactly when it holds along both halves. -/
theorem along_append (s : σ) (is js : List ι) :
    Along step ok s (is ++ js) ↔ Along step ok s is ∧ Along step ok (final step s is) js := by
  induction is generalizing s with
  | nil => simp [Along]
  | cons i is ih => simp [Along, ih, and_assoc]

theorem Along.and {ok' : σ → ι → Prop} {s : σ} {is : List ι} (h : Along step ok s is)
    (h' : Along step ok' s is) : Along step (fun s i => ok s i ∧ ok' s i) s is := by
  induction is generalizing s with
  | nil => trivial
  | cons i is ih => exact ⟨⟨h.1, h'.1⟩, ih h.2 h'.2⟩

/-- What holds of every input holds along the run. -/
theorem along_of_forall {P : ι → Prop} {s : σ} {is : List ι} (h : ∀ i ∈ is, P i) :
    Along step (fun _ i => P i) s is := by
  induction is generalizing s with
  | nil => trivial
  | cons i is ih =>
    exact ⟨h i List.mem_cons_self, ih fun j hj => h j (List.mem_cons_of_mem _ hj)⟩

theorem Along.before {s : σ} {pre is : List ι} (h : Along step ok s is) (hpre : pre <+: is) :
    Along step ok s pre := by
  obtain ⟨post, rfl⟩ := hpre
  exact ((along_append s pre post).mp h).1

/-- **The invariant rule.** What holds at the start and is kept by every step that meets
`ok` holds at the end of every run along which `ok` holds. -/
theorem Along.invariant (hstep : ∀ s i, Inv s → ok s i → Inv (step s i)) {s : σ} {is : List ι}
    (hs : Inv s) (hrun : Along step ok s is) : Inv (final step s is) := by
  induction is generalizing s with
  | nil => exact hs
  | cons i is ih => exact ih (hstep s i hs hrun.1) hrun.2

variable (Inv) in
/-- The rule for runs of arbitrary inputs. -/
theorem invariant_final (hstep : ∀ s i, Inv s → Inv (step s i)) {s : σ} (hs : Inv s)
    (is : List ι) : Inv (final step s is) := by
  induction is generalizing s with
  | nil => exact hs
  | cons i is ih => exact ih (hstep s i hs)

variable (Inv) in
/-- Where `ok` is exactly what a step needs to keep an invariant, it holds along a run exactly
when every state of the run has the invariant. -/
theorem along_iff_invariant (hstep : ∀ s i, Inv s → (ok s i ↔ Inv (step s i))) {s : σ}
    {is : List ι} (hs : Inv s) :
    Along step ok s is ↔ ∀ pre, pre <+: is → Inv (final step s pre) := by
  constructor
  · rintro h pre ⟨post, rfl⟩
    exact ((along_append s pre post).mp h).1.invariant (fun s i hi => (hstep s i hi).mp) hs
  · intro h
    induction is generalizing s with
    | nil => trivial
    | cons i is ih =>
      have hi : Inv (step s i) := h [i] (List.prefix_append [i] is)
      refine ⟨(hstep s i hs).mpr hi, ih hi fun pre hpre => ?_⟩
      exact h (i :: pre) (List.cons_prefix_cons.mpr ⟨rfl, hpre⟩)

end Run
