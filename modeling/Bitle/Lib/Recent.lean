import Mathlib.Data.List.Perm.Basic
import Mathlib.Data.List.ReduceOption
import Mathlib.Order.Lattice

/-!
# A few slots that remember the latest things for a while

A table of slots holds things with the time until which they are remembered. A new thing takes a
slot that is free or has run out, and only if there is none the one that runs out first (`Victim`).
As long as new things are remembered at least as long as the old ones, a thing is only lost when its
time is over or when so many others as there are slots are remembered at least as long
(`Remembers.forgotten`).
-/

namespace Recent

variable {κ τ : Type} [LinearOrder τ]

/-- The slot may be overwritten: its time is over, or no slot's is and none runs out before it. -/
structure Victim (now : τ) (l : List (Option (κ × τ))) (i : Nat) : Prop where
  lt : i < l.length
  last : ∀ e, l[i]? = some (some e) → now < e.2 →
    ∀ x ∈ l, ∃ e', x = some e' ∧ now < e'.2 ∧ e.2 ≤ e'.2

/-- What the slots `l` know of the things `hist` that were put into them so far: they hold some of
them, and one that is missing is over or outdone by every slot. -/
structure Remembers (now : τ) (hist : List (κ × τ)) (l : List (Option (κ × τ))) : Prop where
  held : List.Subperm l.reduceOption hist
  kept : ∀ e ∈ hist, now < e.2 → some e ∈ l ∨ ∀ x ∈ l, ∃ e', x = some e' ∧ e.2 ≤ e'.2

theorem remembers_nil (now : τ) {l : List (Option (κ × τ))} (hl : ∀ x ∈ l, x = none) :
    Remembers now [] l := by
  constructor
  · have hnil : l.reduceOption = [] := by
      rw [List.reduceOption_eq_nil_iff]
      exact ⟨l.length, List.eq_replicate_of_mem hl⟩
    rw [hnil]
  · intro e he
    cases he

variable {now now' : τ} {hist : List (κ × τ)} {l : List (Option (κ × τ))} {i : Nat}

/-- Time goes by. -/
theorem Remembers.later (h : Remembers now hist l) (hle : now ≤ now') : Remembers now' hist l :=
  ⟨h.held, fun e he hlt => h.kept e he (lt_of_le_of_lt hle hlt)⟩

omit [LinearOrder τ] in
/-- The slots after a write hold the new thing and some of the old ones. -/
theorem reduceOption_set_subperm (l : List (Option (κ × τ))) (i : Nat) (e : κ × τ) :
    List.Subperm (l.set i (some e)).reduceOption (e :: l.reduceOption) := by
  induction l generalizing i with
  | nil => exact List.nil_subperm
  | cons x l ih =>
    cases i with
    | zero =>
      rw [List.set_cons_zero, List.reduceOption_cons_of_some]
      refine (List.subperm_cons e).mpr ?_
      cases x with
      | none => exact List.Subperm.refl _
      | some y => exact (List.sublist_cons_self y _).subperm
    | succ i =>
      rw [List.set_cons_succ]
      cases x with
      | none => exact ih i
      | some y =>
        rw [List.reduceOption_cons_of_some, List.reduceOption_cons_of_some]
        exact ((List.subperm_cons y).mpr (ih i)).trans (List.Perm.swap e y _).subperm

/-- **A new thing is put into a slot that may be overwritten.** -/
theorem Remembers.remember (h : Remembers now hist l) (hle : now ≤ now') (hv : Victim now' l i)
    (k : κ) {til : τ} (hlong : ∀ e ∈ hist, e.2 ≤ til) :
    Remembers now' ((k, til) :: hist) (l.set i (some (k, til))) := by
  constructor
  · exact (reduceOption_set_subperm l i (k, til)).trans ((List.subperm_cons _).mpr h.held)
  · intro e he hlt
    rcases List.mem_cons.mp he with rfl | he
    · exact .inl (List.mem_set hv.lt _)
    · rcases h.kept e he (lt_of_le_of_lt hle hlt) with hmem | hall
      · obtain ⟨j, hj, hje⟩ := List.mem_iff_getElem.mp hmem
        by_cases hij : i = j
        · -- its own slot is overwritten: all others last longer
          subst hij
          right
          have hlast := hv.last e (by rw [List.getElem?_eq_getElem hj, hje]) hlt
          intro x hx
          rcases List.mem_or_eq_of_mem_set hx with hx | rfl
          · obtain ⟨e', rfl, -, hle'⟩ := hlast x hx
            exact ⟨e', rfl, hle'⟩
          · exact ⟨_, rfl, hlong e he⟩
        · left
          rw [List.mem_iff_getElem]
          exact ⟨j, by rwa [List.length_set], by rw [List.getElem_set_ne hij, hje]⟩
      · right
        intro x hx
        rcases List.mem_or_eq_of_mem_set hx with hx | rfl
        · exact hall x hx
        · exact ⟨_, rfl, hlong e he⟩

/-- **What is lost before its time** is outdone by as many others as there are slots. -/
theorem Remembers.forgotten (h : Remembers now hist l) {e : κ × τ} (he : e ∈ hist)
    (hlt : now < e.2) (hlost : some e ∉ l) :
    l.length + 1 ≤ hist.countP fun e' => e.2 ≤ e'.2 := by
  have hall := (h.kept e he hlt).resolve_left hlost
  have hlen : ∀ l : List (Option (κ × τ)), (∀ x ∈ l, ∃ e', x = some e' ∧ e.2 ≤ e'.2) →
      l.reduceOption.countP (fun e' => e.2 ≤ e'.2) = l.length := by
    intro l
    induction l with
    | nil => exact fun _ => rfl
    | cons x l ih =>
      intro hl
      obtain ⟨e', rfl, hle⟩ := hl x List.mem_cons_self
      rw [List.reduceOption_cons_of_some, List.countP_cons_of_pos (p := fun e' : κ × τ =>
        decide (e.2 ≤ e'.2)) (decide_eq_true hle), ih fun y hy => hl y (List.mem_cons_of_mem _ hy),
        List.length_cons]
  -- the slots' things and `e` itself are among the history
  have hnot : e ∉ l.reduceOption := by
    rw [List.reduceOption_mem_iff]
    exact hlost
  have hsub := List.cons_subperm_of_not_mem_of_mem hnot he h.held
  have hcount := hsub.countP_le (fun e' => decide (e.2 ≤ e'.2))
  rw [List.countP_cons_of_pos (p := fun e' : κ × τ => decide (e.2 ≤ e'.2))
    (decide_eq_true (le_refl e.2)), hlen l hall] at hcount
  exact hcount

end Recent
