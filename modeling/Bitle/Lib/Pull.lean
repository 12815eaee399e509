import Mathlib.Algebra.Order.Ring.Nat
import Mathlib.Algebra.Order.BigOperators.Group.List
import Mathlib.Logic.Relation

/-!
# Pulling pieces one at a time

Somebody has `total` pieces and answers every question for one of them. A receiver takes them in
order: it asks for the piece `next`, and when that piece comes, it asks for the one behind it. To
any other piece it answers with its question, and from time to time it asks again without being told
to. What is on the way can be lost and can overtake; each question and each piece arrives once at
most.

Every question that was asked again keeps going round beside the first one, so the effort can
multiply. `potential` bounds it: a token that goes round four times finds the receiver one piece
further. And while the receiver is pulling no token ends but by being lost (`Inv.kept`).
-/

namespace Pull

/-- What is on its way: the question for piece `i`, the piece, or a word that needs no answer. -/
inductive Token where
  | ask (i : Nat)
  | piece (i : Nat)
  | note
  deriving DecidableEq

/-- The receiver is pulling, has given up, or has all the pieces. -/
inductive Phase where
  | pulling
  | stopped
  | complete
  deriving DecidableEq

structure State where
  phase : Phase := .pulling
  next : Nat := 0
  air : List Token := [.ask 0]
  asked : Nat := 0
  lost : Nat := 0
  delivered : Nat := 0

variable (total : Nat)

/-- What a token that arrives makes of the receiver, and what is sent in return. -/
def react (phase : Phase) (next : Nat) : Token → Phase × Nat × List Token
  | .ask i => (phase, next, [.piece i])
  | .note => (phase, next, [])
  | .piece i =>
    if phase ≠ .pulling then (phase, next, [])
    else if i ≠ next then (phase, next, [.ask next])
    else if next + 1 < total then (.pulling, next + 1, [.ask (next + 1)])
    else (.complete, next + 1, [.note])

/-- The token `i` arrives. -/
def State.deliver (s : State) (i : Nat) (tok : Token) : State :=
  let after := react total s.phase s.next tok
  { s with phase := after.1, next := after.2.1, air := s.air.eraseIdx i ++ after.2.2
           delivered := s.delivered + 1 }

/-- The receiver asks again. -/
def State.again (s : State) : State :=
  { s with air := s.air ++ [.ask s.next], asked := s.asked + 1 }

inductive Step : State → State → Prop
  | deliver {s : State} {i : Nat} {tok : Token} :
      s.air[i]? = some tok → Step s (s.deliver total i tok)
  | lose {s : State} {i : Nat} {tok : Token} :
      s.air[i]? = some tok → Step s { s with air := s.air.eraseIdx i, lost := s.lost + 1 }
  | again {s : State} : s.phase = .pulling → Step s s.again
  | stop {s : State} : s.phase = .pulling → Step s { s with phase := .stopped }

/-! ## How the receiver reacts to a piece -/

section React

variable {total} {phase : Phase} {next i : Nat}

theorem react_of_ne (hphase : phase ≠ .pulling) (next i : Nat) :
    react total phase next (.piece i) = (phase, next, []) := by
  unfold react
  exact if_pos hphase

theorem react_other (hi : i ≠ next) :
    react total .pulling next (.piece i) = (.pulling, next, [.ask next]) := by
  unfold react
  dsimp only
  rw [if_neg (not_not_intro rfl), if_pos hi]

theorem react_more (hmore : next + 1 < total) :
    react total .pulling next (.piece next) = (.pulling, next + 1, [.ask (next + 1)]) := by
  unfold react
  dsimp only
  rw [if_neg (not_not_intro rfl), if_neg (not_not_intro rfl), if_pos hmore]

theorem react_last (hlast : ¬ next + 1 < total) :
    react total .pulling next (.piece next) = (.complete, next + 1, [.note]) := by
  unfold react
  dsimp only
  rw [if_neg (not_not_intro rfl), if_neg (not_not_intro rfl), if_neg hlast]

/-- Nothing that arrives makes the receiver give up. -/
theorem react_stopped {tok : Token} (h : (react total phase next tok).1 = .stopped) :
    phase = .stopped := by
  cases tok with
  | ask i => exact h
  | note => exact h
  | piece i =>
    by_cases hphase : phase = .pulling
    · subst hphase
      by_cases hi : i = next
      · subst hi
        by_cases hmore : i + 1 < total
        · rw [react_more hmore] at h
          cases h
        · rw [react_last hmore] at h
          cases h
      · rw [react_other hi] at h
        cases h
    · rw [react_of_ne hphase] at h
      exact h

end React

/-! ## The effort -/

/-- How far a token is from making the receiver take the next piece. -/
def stage (next : Nat) : Token → Nat
  | .ask i => if i = next then 2 else 4
  | .piece i => if i = next then 1 else 3
  | .note => 1

/-- The same when the receiver has stopped: a question is answered, and that is all. -/
def rest : Token → Nat
  | .ask _ => 2
  | _ => 1

/-- How often a token, and what is sent because of it, can still be delivered. -/
def weight (phase : Phase) (next : Nat) (tok : Token) : Nat :=
  match phase with
  | .pulling => stage next tok + 2 * (total - next)
  | _ => rest tok

def potential (phase : Phase) (next : Nat) (air : List Token) : Nat :=
  (air.map (weight total phase next)).sum

variable {total} {s s' : State} {i : Nat} {tok : Token} {air : List Token} {phase : Phase}
  {next : Nat}

theorem potential_append (phase : Phase) (next : Nat) (air sent : List Token) :
    potential total phase next (air ++ sent) =
      potential total phase next air + potential total phase next sent := by
  unfold potential
  rw [List.map_append, List.sum_append]

theorem potential_singleton (phase : Phase) (next : Nat) (tok : Token) :
    potential total phase next [tok] = weight total phase next tok := by
  unfold potential
  rw [List.map_singleton, List.sum_singleton]

/-- A token leaves with its weight. -/
theorem potential_eraseIdx (phase : Phase) (next : Nat) (hi : air[i]? = some tok) :
    potential total phase next air =
      weight total phase next tok + potential total phase next (air.eraseIdx i) := by
  obtain ⟨hlt, rfl⟩ := List.getElem?_eq_some_iff.mp hi
  have hperm := (List.getElem_cons_eraseIdx_perm hlt).map (weight total phase next)
  unfold potential
  rw [← hperm.sum_eq, List.map_cons, List.sum_cons]

theorem potential_mono {phase' : Phase} {next' : Nat}
    (h : ∀ tok, weight total phase' next' tok ≤ weight total phase next tok) (air : List Token) :
    potential total phase' next' air ≤ potential total phase next air :=
  List.sum_le_sum fun tok _ => h tok

/-- A piece further on, no token is worth more. -/
theorem weight_succ_le (hnext : next < total) (tok : Token) :
    weight total .pulling (next + 1) tok ≤ weight total .pulling next tok := by
  have hstage : stage (next + 1) tok ≤ stage next tok + 2 := by
    cases tok with
    | ask i =>
      show (if i = next + 1 then 2 else 4) ≤ (if i = next then 2 else 4) + 2
      split <;> split <;> omega
    | piece i =>
      show (if i = next + 1 then 1 else 3) ≤ (if i = next then 1 else 3) + 2
      split <;> split <;> omega
    | note => exact Nat.le_add_right 1 2
  show stage (next + 1) tok + 2 * (total - (next + 1)) ≤ stage next tok + 2 * (total - next)
  omega

theorem weight_of_ne (hphase : phase ≠ .pulling) (next : Nat) (tok : Token) :
    weight total phase next tok = rest tok := by
  cases phase with
  | pulling => exact absurd rfl hphase
  | stopped => rfl
  | complete => rfl

/-- When the receiver does not pull any more, no token is worth more. -/
theorem weight_rest_le (hphase : phase ≠ .pulling) (next' : Nat) (tok : Token) :
    weight total phase next' tok ≤ weight total .pulling next tok := by
  have hrest : rest tok ≤ stage next tok := by
    cases tok with
    | ask i =>
      show 2 ≤ if i = next then 2 else 4
      split <;> omega
    | piece i =>
      show 1 ≤ if i = next then 1 else 3
      split <;> omega
    | note => exact Nat.le_refl 1
  rw [weight_of_ne hphase]
  exact hrest.trans (Nat.le_add_right _ _)

/-! ## What holds in every run -/

/-- The token is about a piece there is. -/
def Token.Within (total : Nat) : Token → Prop
  | .ask i => i < total
  | .piece i => i < total
  | .note => True

structure Inv (total : Nat) (s : State) : Prop where
  within : ∀ tok ∈ s.air, tok.Within total
  next_lt : s.phase = .pulling → s.next < total
  next_eq : s.phase = .complete → s.next = total
  asks : s.phase = .pulling → Token.note ∉ s.air
  kept : s.phase = .pulling → s.air.length + s.lost = s.asked + 1
  spent : s.delivered + potential total s.phase s.next s.air ≤ (2 * total + 2) * (s.asked + 1)

theorem inv_start (htotal : 0 < total) : Inv total {} where
  within tok htok := by
    rw [List.mem_singleton.mp htok]
    exact htotal
  next_lt _ := htotal
  next_eq h := by cases h
  asks _ h := by cases List.mem_singleton.mp h
  kept _ := rfl
  spent := by
    have hweight : potential total .pulling 0 [.ask 0] = 2 + 2 * total := potential_singleton _ _ _
    show 0 + potential total .pulling 0 [.ask 0] ≤ (2 * total + 2) * 1
    omega

/-- A token arrives at somebody who is not pulling: it is answered or dropped. -/
theorem Inv.deliver_rest (h : Inv total s) (hi : s.air[i]? = some tok) (hphase : s.phase ≠ .pulling)
    (hsent : ∀ tok' ∈ (react total s.phase s.next tok).2.2, tok'.Within total)
    (hreact : (react total s.phase s.next tok).1 = s.phase ∧
      (react total s.phase s.next tok).2.1 = s.next)
    (hless : potential total s.phase s.next (react total s.phase s.next tok).2.2 <
      weight total s.phase s.next tok) : Inv total (s.deliver total i tok) := by
  have hspent := h.spent
  rw [potential_eraseIdx s.phase s.next hi] at hspent
  constructor
  · intro tok' htok'
    rcases List.mem_append.mp htok' with hold | hnew
    · exact h.within tok' (List.mem_of_mem_eraseIdx hold)
    · exact hsent tok' hnew
  · exact fun hp => absurd (hreact.1.symm.trans hp) hphase
  · exact fun hp => hreact.2.trans (h.next_eq (hreact.1.symm.trans hp))
  · exact fun hp => absurd (hreact.1.symm.trans hp) hphase
  · exact fun hp => absurd (hreact.1.symm.trans hp) hphase
  · show s.delivered + 1 + potential total (react total s.phase s.next tok).1
      (react total s.phase s.next tok).2.1
      (s.air.eraseIdx i ++ (react total s.phase s.next tok).2.2) ≤ _
    rw [hreact.1, hreact.2, potential_append]
    show _ ≤ (2 * total + 2) * (s.asked + 1)
    omega

/-- A token arrives while the receiver is pulling, which goes on. -/
theorem Inv.deliver_pulling (h : Inv total s) (hi : s.air[i]? = some tok)
    (hphase : s.phase = .pulling) (next' : Nat) (tok' : Token)
    (hreact : react total s.phase s.next tok = (.pulling, next', [tok'])) (hnext : next' < total)
    (hwithin : tok'.Within total) (hnote : tok' ≠ .note)
    (hmono : ∀ tok, weight total .pulling next' tok ≤ weight total .pulling s.next tok)
    (hless : weight total .pulling next' tok' < weight total .pulling s.next tok) :
    Inv total (s.deliver total i tok) := by
  have hspent := h.spent
  rw [hphase, potential_eraseIdx .pulling s.next hi] at hspent
  have hrest := potential_mono hmono (s.air.eraseIdx i)
  have hlt := (List.getElem?_eq_some_iff.mp hi).1
  have hlen := List.length_eraseIdx_of_lt hlt
  have hkept := h.kept hphase
  unfold State.deliver
  rw [hreact]
  constructor
  · intro t ht
    rcases List.mem_append.mp ht with hold | hnew
    · exact h.within t (List.mem_of_mem_eraseIdx hold)
    · rw [List.mem_singleton.mp hnew]
      exact hwithin
  · exact fun _ => hnext
  · intro hp
    cases hp
  · intro _ ht
    rcases List.mem_append.mp ht with hold | hnew
    · exact h.asks hphase (List.mem_of_mem_eraseIdx hold)
    · exact hnote (List.mem_singleton.mp hnew).symm
  · intro _
    show (s.air.eraseIdx i ++ [tok']).length + s.lost = s.asked + 1
    rw [List.length_append, List.length_singleton]
    omega
  · show s.delivered + 1 + potential total .pulling next' (s.air.eraseIdx i ++ [tok']) ≤ _
    rw [potential_append, potential_singleton]
    show _ ≤ (2 * total + 2) * (s.asked + 1)
    omega

/-- The last piece arrives. -/
theorem Inv.deliver_last (h : Inv total s) (hi : s.air[i]? = some (.piece s.next))
    (hphase : s.phase = .pulling) (hlast : ¬ s.next + 1 < total) :
    Inv total (s.deliver total i (.piece s.next)) := by
  have hspent := h.spent
  have hnext := h.next_lt hphase
  rw [hphase, potential_eraseIdx .pulling s.next hi] at hspent
  -- the piece pays for the note, and what it was worth is spent
  have hpiece : weight total .pulling s.next (.piece s.next) = 1 + 2 * (total - s.next) := by
    show (if s.next = s.next then 1 else 3) + _ = _
    rw [if_pos rfl]
  have hrest : potential total .complete (s.next + 1) (s.air.eraseIdx i) ≤
      potential total .pulling s.next (s.air.eraseIdx i) :=
    potential_mono (weight_rest_le (by simp) (s.next + 1)) _
  have hreact : react total s.phase s.next (.piece s.next) = (.complete, s.next + 1, [.note]) := by
    rw [hphase]
    exact react_last hlast
  unfold State.deliver
  rw [hreact]
  constructor
  · intro t ht
    rcases List.mem_append.mp ht with hold | hnew
    · exact h.within t (List.mem_of_mem_eraseIdx hold)
    · rw [List.mem_singleton.mp hnew]
      trivial
  · intro hp
    cases hp
  · intro _
    show s.next + 1 = total
    omega
  · intro hp
    cases hp
  · intro hp
    cases hp
  · show s.delivered + 1 + potential total .complete (s.next + 1) (s.air.eraseIdx i ++ [.note]) ≤ _
    rw [potential_append, potential_singleton]
    show s.delivered + 1 + (potential total .complete (s.next + 1) (s.air.eraseIdx i) + 1) ≤
      (2 * total + 2) * (s.asked + 1)
    omega

/-- **A token arrives.** -/
theorem Inv.deliver (h : Inv total s) (hi : s.air[i]? = some tok) :
    Inv total (s.deliver total i tok) := by
  have hwithin := h.within tok (List.mem_of_getElem? hi)
  by_cases hphase : s.phase = .pulling
  · have hnext := h.next_lt hphase
    cases tok with
    | note => exact absurd (List.mem_of_getElem? hi) (h.asks hphase)
    | ask j =>
      refine h.deliver_pulling hi hphase s.next (.piece j) (by rw [hphase]; rfl)
        hnext hwithin (by simp) (fun _ => Nat.le_refl _) ?_
      show (if j = s.next then 1 else 3) + _ < (if j = s.next then 2 else 4) + _
      split <;> omega
    | piece j =>
      by_cases hj : j = s.next
      · subst hj
        by_cases hlast : s.next + 1 < total
        · -- the next piece, and there are more
          refine h.deliver_pulling hi hphase (s.next + 1) (.ask (s.next + 1)) ?_ hlast hlast
            (by simp) (weight_succ_le hnext) ?_
          · rw [hphase]
            exact react_more hlast
          · show (if s.next + 1 = s.next + 1 then 2 else 4) + 2 * (total - (s.next + 1)) <
              (if s.next = s.next then 1 else 3) + 2 * (total - s.next)
            rw [if_pos rfl, if_pos rfl]
            omega
        · exact h.deliver_last hi hphase hlast
      · -- any other piece is answered with the question
        refine h.deliver_pulling hi hphase s.next (.ask s.next) ?_ hnext hnext (by simp)
          (fun _ => Nat.le_refl _) ?_
        · rw [hphase]
          exact react_other hj
        · show (if s.next = s.next then 2 else 4) + _ < (if j = s.next then 1 else 3) + _
          rw [if_pos rfl, if_neg hj]
          omega
  · have hweight : ∀ tok', weight total s.phase s.next tok' = rest tok' :=
      weight_of_ne hphase s.next
    cases tok with
    | ask j =>
      refine h.deliver_rest hi hphase ?_ ⟨rfl, rfl⟩ ?_
      · intro tok' htok'
        rw [List.mem_singleton.mp htok']
        exact hwithin
      · show potential total s.phase s.next [.piece j] < _
        rw [potential_singleton, hweight, hweight]
        exact Nat.lt_succ_self 1
    | note =>
      refine h.deliver_rest hi hphase (by simp [react]) ⟨rfl, rfl⟩ ?_
      rw [hweight]
      exact Nat.one_pos
    | piece j =>
      have hreact : react total s.phase s.next (.piece j) = (s.phase, s.next, []) :=
        react_of_ne hphase s.next j
      refine h.deliver_rest hi hphase (by simp [hreact]) (by rw [hreact]; exact ⟨rfl, rfl⟩) ?_
      rw [hweight, hreact]
      exact Nat.one_pos

/-- **One step.** -/
theorem Inv.step (h : Inv total s) (hstep : Step total s s') : Inv total s' := by
  cases hstep with
  | deliver hi => exact h.deliver hi
  | lose hi =>
    -- one token fewer, and one more that was lost
    have hspent := h.spent
    rw [potential_eraseIdx s.phase s.next hi] at hspent
    have hlt := (List.getElem?_eq_some_iff.mp hi).1
    have hlen := List.length_eraseIdx_of_lt hlt
    refine { h with within := ?_, asks := ?_, kept := ?_, spent := ?_ }
    · exact fun tok htok => h.within tok (List.mem_of_mem_eraseIdx htok)
    · exact fun hp hnote => h.asks hp (List.mem_of_mem_eraseIdx hnote)
    · intro hp
      have hkept := h.kept hp
      dsimp only
      omega
    · dsimp only
      omega
  | again hphase =>
    -- the new token weighs what the bound grows by, at most
    have hnext := h.next_lt hphase
    refine { h with within := ?_, asks := ?_, kept := ?_, spent := ?_ }
    · intro tok htok
      rcases List.mem_append.mp htok with hold | hnew
      · exact h.within tok hold
      · rw [List.mem_singleton.mp hnew]
        exact hnext
    · intro hp hnote
      rcases List.mem_append.mp hnote with hold | hnew
      · exact h.asks hp hold
      · cases List.mem_singleton.mp hnew
    · intro hp
      have hkept := h.kept hp
      show (s.air ++ [Token.ask s.next]).length + s.lost = s.asked + 1 + 1
      rw [List.length_append, List.length_singleton]
      omega
    · have hspent := h.spent
      have hweight : weight total s.phase s.next (.ask s.next) = 2 + 2 * (total - s.next) := by
        rw [hphase]
        show (if s.next = s.next then 2 else 4) + _ = _
        rw [if_pos rfl]
      show s.delivered + potential total s.phase s.next (s.air ++ [.ask s.next]) ≤
        (2 * total + 2) * (s.asked + 1 + 1)
      rw [potential_append, potential_singleton, hweight, Nat.mul_add _ (s.asked + 1), Nat.mul_one]
      omega
  | stop hphase =>
    have hspent := h.spent
    rw [hphase] at hspent
    constructor
    · exact h.within
    · intro hp
      cases hp
    · intro hp
      cases hp
    · intro hp
      cases hp
    · intro hp
      cases hp
    · have hrest : potential total .stopped s.next s.air ≤ potential total .pulling s.next s.air :=
        potential_mono (weight_rest_le (by simp) s.next) s.air
      show s.delivered + potential total .stopped s.next s.air ≤ _
      exact (Nat.add_le_add_left hrest _).trans hspent

/-- **A whole run.** -/
theorem Inv.run (h : Inv total s) (hrun : Relation.ReflTransGen (Step total) s s') :
    Inv total s' := by
  induction hrun with
  | refl => exact h
  | tail _ hstep ih => exact ih.step hstep

/-- **No token was lost for nothing.** When nothing is on its way and no more was lost than was
asked again, the receiver is not pulling any more. -/
theorem Inv.not_pulling (h : Inv total s) (hair : s.air = []) (hlost : s.lost ≤ s.asked) :
    s.phase ≠ .pulling := by
  intro hphase
  have hkept := h.kept hphase
  rw [hair, List.length_nil] at hkept
  omega

end Pull
