import Mathlib.Order.Basic

/-! Holders of a resource that is replaced after a quota of uses. A holder counts down what is left of
the quota. Each time it needs the resource it takes the one it holds or opens a new one; a use that is
lost loses the resource too; a use that is served gives it back, unless the quota is spent, and then the
next quota is drawn.

No resource is used more often than a quota allows. It is used exactly that often when no resource is
lost after it has served: otherwise the next one is opened with what is left of an old quota. -/

namespace Quota

/-- A holder between uses: whether it holds a resource, and what is left of the quota. -/
structure Holder where
  held : Bool
  left : ℕ
  deriving DecidableEq, Repr

/-- What becomes of a use: there is no resource to be had, the use is lost, or it is served. -/
inductive Outcome where
  | unopened
  | lost
  | served
  deriving DecidableEq, Repr

structure Use where
  before : Holder
  outcome : Outcome
  after : Holder
  deriving DecidableEq, Repr

/-- The quotas that can be drawn, and what a lost use makes of what is left. -/
structure Rule where
  draws : ℕ → Prop
  lost : ℕ → ℕ

/-- The uses that follow the rule. -/
inductive Lawful (rule : Rule) : Use → Prop where
  | unopened (left : ℕ) : Lawful rule ⟨⟨false, left⟩, .unopened, ⟨false, left⟩⟩
  | lost (held : Bool) (left : ℕ) : Lawful rule ⟨⟨held, left⟩, .lost, ⟨false, rule.lost left⟩⟩
  | kept (held : Bool) (left : ℕ) (hleft : 0 < left - 1) :
      Lawful rule ⟨⟨held, left⟩, .served, ⟨true, left - 1⟩⟩
  | spent (held : Bool) (left next : ℕ) (hleft : left - 1 = 0) (hdraws : rule.draws next) :
      Lawful rule ⟨⟨held, left⟩, .served, ⟨false, next⟩⟩

/-- A use that spends the quota, when it is known that nothing is held after it. -/
theorem Lawful.spent_of_not_held {rule : Rule} {held' : Bool} (held : Bool) (left next : ℕ)
    (hleft : left - 1 = 0) (hdraws : rule.draws next) (hheld : held' = false) :
    Lawful rule ⟨⟨held, left⟩, .served, ⟨held', next⟩⟩ := by
  rw [hheld]
  exact .spent held left next hleft hdraws

/-- Lawful uses, each from where the one before it ended. -/
inductive History (rule : Rule) : Holder → List Use → Prop where
  | nil (holder : Holder) : History rule holder []
  | cons {use : Use} {uses : List Use} (huse : Lawful rule use) (huses : History rule use.after uses) :
      History rule use.before (use :: uses)

/-- How often the resource in hand has been used, `carried` times before the history. -/
def carriedFrom : ℕ → List Use → ℕ
  | carried, [] => carried
  | carried, use :: uses => carriedFrom (if use.after.held then carried + 1 else 0) uses

/-- How often the resource in hand at the end of a history has been used, when none was held before. -/
def carried (uses : List Use) : ℕ := carriedFrom 0 uses

/-- How often each resource is used, the one in hand `carried` times before the history. A use of a
resource that is not in hand afterwards is the last of it; the last number is of the one in hand at the
end. -/
def usedFrom : ℕ → List Use → List ℕ
  | carried, [] => [carried]
  | carried, use :: uses =>
      if use.outcome = .unopened then usedFrom 0 uses
      else if use.after.held then usedFrom (carried + 1) uses
      else (carried + 1) :: usedFrom 0 uses

/-- How often each resource is used in a history, when none was held before. -/
def used (uses : List Use) : List ℕ := usedFrom 0 uses

/-- The quota that was drawn last, `drawn` being the one before the history. -/
def drawnFrom : ℕ → List Use → ℕ
  | drawn, [] => drawn
  | drawn, use :: uses =>
      drawnFrom (if use.outcome = .served ∧ use.after.held = false then use.after.left else drawn) uses

/-- The uses of the resource in hand and what is left are within the quota. -/
structure Within (n carried : ℕ) (holder : Holder) : Prop where
  left_le : holder.left ≤ n
  left_pos : holder.held = true → 0 < holder.left
  carried_le : holder.held = true → carried + holder.left ≤ n
  carried_eq : holder.held = false → carried = 0

variable {rule : Rule} {n : ℕ}

theorem Within.use {use : Use} {c : ℕ} (h : Within n c use.before) (huse : Lawful rule use)
    (hdraws : ∀ d, rule.draws d → d ≤ n) (hlost : ∀ left, left ≤ n → rule.lost left ≤ n) :
    Within n (if use.after.held then c + 1 else 0) use.after := by
  cases huse with
  | unopened left => exact ⟨h.left_le, by simp, by simp, by simp⟩
  | lost held left => exact ⟨hlost left h.left_le, by simp, by simp, by simp⟩
  | kept held left hleft =>
      have hle := h.left_le
      simp only at hle
      refine ⟨by simp only; omega, fun _ => hleft, fun _ => ?_, by simp⟩
      simp only [if_true]
      cases held with
      | false =>
          have hcarried := h.carried_eq rfl
          omega
      | true =>
          have hcarried := h.carried_le rfl
          simp only at hcarried
          omega
  | spent held left next hleft hnext => exact ⟨hdraws next hnext, by simp, by simp, by simp⟩

/-- A use of the resource in hand, or of a new one, is within the quota. -/
theorem Within.carried_lt {c : ℕ} {holder : Holder} (h : Within n c holder) : c + 1 ≤ max 1 n := by
  cases hheld : holder.held with
  | false =>
      have hcarried := h.carried_eq hheld
      omega
  | true =>
      have hcarried := h.carried_le hheld
      have hpos := h.left_pos hheld
      omega

theorem usedFrom_le {c : ℕ} {holder : Holder} {uses : List Use} (h : Within n c holder)
    (huses : History rule holder uses) (hdraws : ∀ d, rule.draws d → d ≤ n)
    (hlost : ∀ left, left ≤ n → rule.lost left ≤ n) : ∀ k ∈ usedFrom c uses, k ≤ max 1 n := by
  induction huses generalizing c with
  | nil holder =>
      intro k hk
      obtain rfl : k = c := List.mem_singleton.mp hk
      have hlt := h.carried_lt
      omega
  | @cons use uses huse huses ih =>
      have hrest := ih (h.use huse hdraws hlost)
      have hlt := h.carried_lt
      intro k hk
      rw [usedFrom] at hk
      split_ifs at hk with hunopened hheld
      · have hnone : use.after.held = false := by
          cases huse with
          | unopened left => rfl
          | lost held left => cases hunopened
          | kept held left hleft => cases hunopened
          | spent held left next hleft hnext => cases hunopened
        rw [hnone] at hrest
        exact hrest k hk
      · rw [if_pos hheld] at hrest
        exact hrest k hk
      · rw [if_neg hheld] at hrest
        rcases List.mem_cons.mp hk with rfl | hk
        · exact hlt
        · exact hrest k hk

/-- **No resource is used more often than the largest quota**, or once when that is zero. -/
theorem used_le {q : ℕ} {uses : List Use} (huses : History rule ⟨false, q⟩ uses) (hq : q ≤ n)
    (hdraws : ∀ d, rule.draws d → d ≤ n) (hlost : ∀ left, left ≤ n → rule.lost left ≤ n) :
    ∀ k ∈ used uses, k ≤ max 1 n :=
  usedFrom_le ⟨hq, by simp, by simp, fun _ => rfl⟩ huses hdraws hlost

/-- A new resource finds the quota as it was drawn, and a resource whose quota is spent has been used as
often as the quota says, or once when that is zero; then a quota is drawn again. -/
def Full (draws : ℕ → Prop) (q : ℕ) (uses : List Use) : Prop :=
  ∀ before use after, uses = before ++ use :: after →
    (use.before.held = false → use.before.left = drawnFrom q before ∧ draws use.before.left) ∧
    (use.outcome = .served → use.after.held = false →
      carried before + 1 = max 1 (drawnFrom q before) ∧ draws use.after.left)

/-- The uses of the resource in hand and what is left are the quota that was drawn. -/
structure Exact (draws : ℕ → Prop) (drawn carried : ℕ) (holder : Holder) : Prop where
  draws : draws drawn
  fresh : holder.held = false → holder.left = drawn ∧ carried = 0
  rest : holder.held = true → 0 < holder.left ∧ carried + holder.left = drawn

theorem Exact.use {use : Use} {drawn c : ℕ} (h : Exact rule.draws drawn c use.before) (huse : Lawful rule use)
    (hlost : ∀ left, rule.lost left = left) (hserved : use.before.held = true → use.outcome = .served) :
    Exact rule.draws (if use.outcome = .served ∧ use.after.held = false then use.after.left else drawn)
      (if use.after.held then c + 1 else 0) use.after := by
  cases huse with
  | unopened left => exact ⟨h.draws, fun _ => ⟨(h.fresh rfl).1, rfl⟩, by simp⟩
  | lost held left =>
      cases held with
      | false =>
          refine ⟨h.draws, fun _ => ⟨?_, rfl⟩, by simp⟩
          simp only [hlost]
          exact (h.fresh rfl).1
      | true => cases hserved rfl
  | kept held left hleft =>
      refine ⟨by simpa using h.draws, by simp, fun _ => ⟨hleft, ?_⟩⟩
      simp only [if_true, reduceCtorEq, and_false, if_false]
      cases held with
      | false =>
          obtain ⟨hfresh, hcarried⟩ := h.fresh rfl
          simp only at hfresh
          omega
      | true =>
          obtain ⟨hpos, hrest⟩ := h.rest rfl
          simp only at hrest
          omega
  | spent held left next hleft hnext => exact ⟨by simpa using hnext, fun _ => ⟨by simp, by simp⟩, by simp⟩

theorem Exact.spent {use : Use} {drawn c : ℕ} (h : Exact rule.draws drawn c use.before) (huse : Lawful rule use)
    (hserved : use.outcome = .served) (hafter : use.after.held = false) :
    c + 1 = max 1 drawn ∧ rule.draws use.after.left := by
  cases huse with
  | unopened left => cases hserved
  | lost held left => cases hserved
  | kept held left hleft => cases hafter
  | spent held left next hleft hnext =>
      refine ⟨?_, hnext⟩
      cases held with
      | false =>
          obtain ⟨hfresh, hcarried⟩ := h.fresh rfl
          simp only at hfresh
          omega
      | true =>
          obtain ⟨hpos, hrest⟩ := h.rest rfl
          simp only at hrest hpos
          omega

theorem exact_at {drawn c : ℕ} {holder : Holder} {uses before after : List Use} {use : Use}
    (h : Exact rule.draws drawn c holder) (huses : History rule holder uses)
    (hlost : ∀ left, rule.lost left = left)
    (hserved : ∀ use ∈ before, use.before.held = true → use.outcome = .served)
    (heq : uses = before ++ use :: after) :
    Exact rule.draws (drawnFrom drawn before) (carriedFrom c before) use.before ∧ Lawful rule use := by
  induction before generalizing drawn c holder uses with
  | nil =>
      rw [heq, List.nil_append] at huses
      cases huses with
      | cons huse huses => exact ⟨h, huse⟩
  | cons first before ih =>
      rw [heq, List.cons_append] at huses
      cases huses with
      | cons huse huses =>
          refine ih (h.use huse hlost (hserved first List.mem_cons_self)) huses ?_ rfl
          exact fun use hmem => hserved use (List.mem_cons_of_mem _ hmem)

theorem mem_dropLast_cons {A : Type} {a first : A} {as : List A} (h : a ∈ (first :: as).dropLast) :
    a = first ∨ a ∈ as.dropLast := by
  cases as with
  | nil => exact absurd h List.not_mem_nil
  | cons next as => exact List.mem_cons.mp h

/-- **When no resource is lost after it has served, every resource has its full quota.** What becomes of the last
use is seen by no resource after it. -/
theorem full_of_served {q : ℕ} {uses : List Use} (huses : History rule ⟨false, q⟩ uses) (hq : rule.draws q)
    (hlost : ∀ left, rule.lost left = left)
    (hserved : ∀ use ∈ uses.dropLast, use.before.held = true → use.outcome = .served) :
    Full rule.draws q uses := by
  intro before use after heq
  have hstart : Exact rule.draws q 0 ⟨false, q⟩ := ⟨hq, fun _ => ⟨rfl, rfl⟩, by simp⟩
  have hbefore : ∀ use' ∈ before, use' ∈ uses.dropLast := by
    intro use' hmem
    rw [heq, List.dropLast_append_cons]
    exact List.mem_append_left _ hmem
  obtain ⟨hexact, huse⟩ := exact_at hstart huses hlost (fun use' hmem => hserved use' (hbefore use' hmem)) heq
  refine ⟨fun hheld => ?_, fun hout hafter => hexact.spent huse hout hafter⟩
  have hfresh := (hexact.fresh hheld).1
  exact ⟨hfresh, hfresh ▸ hexact.draws⟩

end Quota
