import QueryEngine.Proofs.Result
import QueryEngine.Pull.Operator

/-! Steps of two pulls, side by side.

Two steps agree from a frame when they end alike there, whether they succeed or
fail, and what is promised holds where they succeed (`Agree`). A step compared with
itself leaves only the promise. The rules follow the ways in which steps are put
together, so that one walk through an operator's work shows both that it keeps its
promise and that it does not see a setting of its inputs. -/
namespace QueryEngine.Pull
variable {α β : Type} {f : Frame}

/-- `g` is `f` with other books. -/
def Booked (f g : Frame) : Prop :=
  ∃ held pool, g = { f with
    cell := { f.cell with reserved := held }
    session := { f.session with pool := pool } }

theorem Booked.self (f : Frame) : Booked f f := ⟨f.cell.reserved, f.session.pool, rfl⟩

theorem Booked.trans {f g k : Frame} (h : Booked f g) (h' : Booked g k) : Booked f k := by
  obtain ⟨_, _, rfl⟩ := h
  obtain ⟨held, pool, rfl⟩ := h'
  exact ⟨held, pool, rfl⟩

/-- From `f` the steps have one outcome, and a success keeps the promise. -/
def Agree (m₁ m₂ : Pull α) (f : Frame) (Q : α → Frame → Prop) : Prop :=
  m₁ f = m₂ f ∧ ∀ a g, m₁ f = .ok a g → Q a g

namespace Agree

theorem of_ok {m : Pull α} {Q : α → Frame → Prop} (h : ∀ a g, m f = .ok a g → Q a g) : Agree m m f Q := ⟨rfl, h⟩

theorem mono {m₁ m₂ : Pull α} {Q R : α → Frame → Prop} (h : Agree m₁ m₂ f Q) (hQR : ∀ a g, Q a g → R a g) :
    Agree m₁ m₂ f R :=
  ⟨h.1, fun a g hm => hQR a g (h.2 a g hm)⟩

theorem pure {a : α} {Q : α → Frame → Prop} (h : Q a f) : Agree (pure a) (pure a) f Q := by
  refine of_ok fun b g hm => ?_
  cases hm
  exact h

theorem throw {e : Failure} {Q : α → Frame → Prop} : Agree (throw e) (throw e) f Q :=
  of_ok fun _ _ hm => by cases hm

theorem fail {e : QueryError} {Q : α → Frame → Prop} : Agree (Pull.fail e) (Pull.fail e) f Q :=
  of_ok fun _ _ hm => by cases hm

theorem bind {m₁ m₂ : Pull α} {k₁ k₂ : α → Pull β} {Q : α → Frame → Prop} {R : β → Frame → Prop}
    (h : Agree m₁ m₂ f Q) (hk : ∀ a g, Q a g → Agree (k₁ a) (k₂ a) g R) : Agree (m₁ >>= k₁) (m₂ >>= k₂) f R := by
  unfold Agree
  rw [run_bind, run_bind, ← h.1]
  cases hm : m₁ f with
  | ok a g => exact hk a g (h.2 a g hm)
  | error e g => exact ⟨rfl, fun _ _ hm => by cases hm⟩

/-- A first step whose outcome is known, such as a change of one part of the frame. -/
theorem step {m : Pull α} {k₁ k₂ : α → Pull β} {R : β → Frame → Prop} {a : α} {g : Frame} (hm : m f = .ok a g)
    (h : Agree (k₁ a) (k₂ a) g R) : Agree (m >>= k₁) (m >>= k₂) f R := by
  refine (of_ok (Q := fun b g' => b = a ∧ g' = g) fun b g' hb => ?_).bind fun b g' ⟨hb, hg⟩ => ?_
  · cases hm.symm.trans hb
    exact ⟨rfl, rfl⟩
  · rw [hb, hg]
    exact h

theorem last {m : Pull α} {Q : α → Frame → Prop} {a : α} {g : Frame} (hm : m f = .ok a g) (h : Q a g) :
    Agree m m f Q := by
  refine of_ok fun b g' hb => ?_
  cases hm.symm.trans hb
  exact h

theorem ite {c : Prop} [Decidable c] {m₁ m₂ k₁ k₂ : Pull α} {Q : α → Frame → Prop} (ht : c → Agree m₁ m₂ f Q)
    (he : ¬c → Agree k₁ k₂ f Q) : Agree (if c then m₁ else k₁) (if c then m₂ else k₂) f Q := by
  by_cases hc : c
  · rw [if_pos hc, if_pos hc]
    exact ht hc
  · rw [if_neg hc, if_neg hc]
    exact he hc

theorem lift {x : Except Failure α} {Q : α → Frame → Prop} (h : ∀ a, x = .ok a → Q a f) :
    Agree (liftM x) (liftM x) f Q := by
  refine of_ok fun a g hm => ?_
  obtain ⟨hx, rfl⟩ := run_lift_eq_ok.mp hm
  exact h a hx

theorem liftQuery {x : Except QueryError α} {Q : α → Frame → Prop} (h : ∀ a, x = .ok a → Q a f) :
    Agree (liftM x) (liftM x) f Q := by
  refine of_ok fun a g hm => ?_
  obtain ⟨hx, rfl⟩ := run_liftQuery_eq_ok.mp hm
  exact h a hx

theorem lift_bind {x : Except Failure α} {k₁ k₂ : α → Pull β} {R : β → Frame → Prop}
    (h : ∀ a, x = .ok a → Agree (k₁ a) (k₂ a) f R) : Agree (liftM x >>= k₁) (liftM x >>= k₂) f R := by
  refine (lift (Q := fun a g => x = .ok a ∧ g = f) fun a ha => ⟨ha, rfl⟩).bind fun a g ⟨ha, hg⟩ => ?_
  rw [hg]
  exact h a ha

theorem liftQuery_bind {x : Except QueryError α} {k₁ k₂ : α → Pull β} {R : β → Frame → Prop}
    (h : ∀ a, x = .ok a → Agree (k₁ a) (k₂ a) f R) : Agree (liftM x >>= k₁) (liftM x >>= k₂) f R := by
  refine (liftQuery (Q := fun a g => x = .ok a ∧ g = f) fun a ha => ⟨ha, rfl⟩).bind fun a g ⟨ha, hg⟩ => ?_
  rw [hg]
  exact h a ha

theorem filling {step : Filling α} {Q : α → Frame → Prop}
    (h : ∀ a filled, step f.out = .ok a filled → Q a { f with out := filled }) :
    Agree (filling step) (filling step) f Q := by
  refine of_ok fun a g hm => ?_
  unfold Pull.filling at hm
  split at hm
  · rename_i b filled hstep
    cases hm
    exact h _ _ hstep
  · cases hm

/-- Reserving bytes is seen in the books only. -/
theorem reserve (bytes : Nat) : Agree (reserve bytes) (reserve bytes) f fun _ g => Booked f g := by
  unfold Pull.reserve
  exact step rfl (liftQuery_bind fun pool _ => last rfl ⟨_, pool, rfl⟩)

theorem buffering {step₁ step₂ : Pull α} {Q : α → Frame → Prop}
    (h : Agree step₁ step₂ f fun a g => Q a (g.giveBack f.cell.reserved)) :
    Agree (buffering step₁) (buffering step₂) f Q := by
  unfold Agree Pull.buffering
  rw [← h.1]
  cases hm : step₁ f with
  | ok a g =>
    refine ⟨rfl, fun b g' hb => ?_⟩
    cases hb
    exact h.2 a g hm
  | error e g => exact ⟨rfl, fun _ _ hb => by cases hb⟩

theorem onFresh {s : State} {step₁ step₂ : Pull α} {Q : α → Frame → Prop}
    (h : Agree step₁ step₂ { f with below := s.cells } fun a g => Q a (g.replaceBelow f.below)) :
    Agree (onFresh s step₁) (onFresh s step₂) f Q := by
  unfold Agree Pull.onFresh
  rw [← h.1]
  cases hm : step₁ { f with below := s.cells } with
  | ok a g =>
    refine ⟨rfl, fun b g' hb => ?_⟩
    cases hb
    exact h.2 a g hm
  | error e g => exact ⟨rfl, fun _ _ hb => by cases hb⟩

theorem inInput {name : String} {out : Chunk} {after : Frame → Frame → Frame} {step₁ step₂ : Pull Unit}
    {Q : Chunk → Frame → Prop}
    (h : ∀ input, f.input? out = some input → Agree step₁ step₂ input fun _ g => Q g.out (after f g)) :
    Agree (inInput name out after step₁) (inInput name out after step₂) f Q := by
  unfold Agree Pull.inInput
  cases hf : f.input? out with
  | none => exact ⟨rfl, fun _ _ hb => by cases hb⟩
  | some input =>
    simp only
    have hstep := h input hf
    rw [← hstep.1]
    cases hm : step₁ input with
    | ok a g =>
      refine ⟨rfl, fun b g' hb => ?_⟩
      cases hb
      exact hstep.2 a g hm
    | error e g => exact ⟨rfl, fun _ _ hb => by cases hb⟩

end Agree

end QueryEngine.Pull
