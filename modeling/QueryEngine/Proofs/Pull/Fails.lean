import QueryEngine.Proofs.Pull.Agree

/-! How steps fail.

Agreement tells what a step leaves that succeeds; `Fails` tells what one leaves that does
not. The rules follow the ways in which steps are put together. The next step begins
where the first has succeeded, so what the first promises is at hand there. -/
namespace QueryEngine

/-- Bytes were asked for that the pool did not grant. -/
def Failure.Refused : Failure → Prop
  | .error (.resourceExhausted _) => True
  | _ => False

theorem Failure.Refused.resourceExhausted {e : Failure} (h : e.Refused) : ∃ want, e = .error (.resourceExhausted want) := by
  unfold Failure.Refused at h
  split at h
  · exact ⟨_, rfl⟩
  · exact h.elim

namespace Pull
variable {α β : Type} {f : Frame} {E E' : Failure → Frame → Prop}

/-- Where the step fails from `f`, `E` tells of the failure and of the frame that is left. -/
def Fails (m : Pull α) (f : Frame) (E : Failure → Frame → Prop) : Prop := ∀ e g, m f = .error e g → E e g

namespace Fails
variable {m : Pull α} {k : α → Pull β}

theorem mono (h : Fails m f E) (hE : ∀ e g, E e g → E' e g) : Fails m f E' := fun e g hm => hE e g (h e g hm)

theorem of_ok {a : α} {g : Frame} (h : m f = .ok a g) : Fails m f E := fun _ _ hm => by cases h.symm.trans hm

theorem pure {a : α} : Fails (pure a) f E := of_ok rfl

theorem throw {e : Failure} (h : E e f) : Fails (throw e : Pull α) f E := fun _ _ hm => by
  cases hm
  exact h

theorem bind (h : Fails m f E) (hk : ∀ a g, m f = .ok a g → Fails (k a) g E) : Fails (m >>= k) f E := by
  intro e g hm
  rw [run_bind] at hm
  cases hfirst : m f with
  | ok a g' =>
    rw [hfirst] at hm
    exact hk a g' hfirst e g hm
  | error e' g' =>
    rw [hfirst] at hm
    cases hm
    exact h _ _ hfirst

/-- A first step whose outcome is known. -/
theorem step {a : α} {g : Frame} (hm : m f = .ok a g) (h : Fails (k a) g E) : Fails (m >>= k) f E := by
  refine bind (fun e g' he => ?_) fun b g' hb => ?_
  · cases hm.symm.trans he
  · cases hm.symm.trans hb
    exact h

theorem ite {c : Prop} [Decidable c] {m' : Pull α} (ht : c → Fails m f E) (he : ¬c → Fails m' f E) :
    Fails (if c then m else m') f E := by
  split
  · exact ht ‹_›
  · exact he ‹_›

theorem lift {x : Except Failure α} (h : ∀ e, x = .error e → E e f) : Fails (liftM x) f E := by
  intro e g hm
  rw [run_lift] at hm
  cases x with
  | ok a => cases hm
  | error e' =>
    cases hm
    exact h _ rfl

theorem liftQuery {x : Except QueryError α} (h : ∀ e, x = .error e → E (.error e) f) : Fails (liftM x) f E := by
  intro e g hm
  rw [run_liftQuery] at hm
  cases x with
  | ok a => cases hm
  | error e' =>
    cases hm
    exact h _ rfl

theorem lift_bind {x : Except Failure α} (hx : ∀ e, x = .error e → E e f)
    (h : ∀ a, x = .ok a → Fails (k a) f E) : Fails (liftM x >>= k) f E := by
  refine (lift hx).bind fun a g hm => ?_
  obtain ⟨ha, rfl⟩ := run_lift_eq_ok.mp hm
  exact h a ha

theorem liftQuery_bind {x : Except QueryError α} (hx : ∀ e, x = .error e → E (.error e) f)
    (h : ∀ a, x = .ok a → Fails (k a) f E) : Fails (liftM x >>= k) f E := by
  refine (liftQuery hx).bind fun a g hm => ?_
  obtain ⟨ha, rfl⟩ := run_liftQuery_eq_ok.mp hm
  exact h a ha

/-- A reservation fails only by being refused, and then nothing has changed. -/
theorem reserve (bytes : Nat) (h : ∀ e : Failure, e.Refused → E e f) : Fails (reserve bytes) f E := by
  unfold Pull.reserve
  refine step rfl (liftQuery_bind (fun e he => ?_) fun pool _ => of_ok rfl)
  obtain ⟨want, rfl⟩ := Pool.reserve_error he
  exact h _ trivial

theorem filling {step : Filling α} (h : ∀ e filled, step f.out = .error e filled → E e { f with out := filled }) :
    Fails (filling step) f E := by
  intro e g hm
  unfold Pull.filling at hm
  split at hm
  · cases hm
  · rename_i hstep
    cases hm
    exact h _ _ hstep

theorem buffering (h : Fails m f fun e g => E e (g.giveBack (g.cell.reserved - f.cell.reserved))) :
    Fails (buffering m) f E := by
  intro e g hm
  unfold Pull.buffering at hm
  split at hm
  · cases hm
  · rename_i hstep
    cases hm
    exact h _ _ hstep

theorem onFresh {s : State} (h : Fails m { f with below := s.cells } fun e g => E e (g.replaceBelow f.below)) :
    Fails (onFresh s m) f E := by
  intro e g hm
  unfold Pull.onFresh at hm
  split at hm
  · cases hm
  · rename_i hstep
    cases hm
    exact h _ _ hstep

theorem inInput {name : String} {out : Chunk} {after : Frame → Frame → Frame} {m : Pull Unit} {cell : Cell}
    {below : List Cell} (hbelow : f.below = cell :: below)
    (h : Fails m ⟨cell, below, f.session, out⟩ fun e g => E e (after f g)) : Fails (inInput name out after m) f E := by
  intro e g hm
  have hinput : f.input? out = some ⟨cell, below, f.session, out⟩ := by rw [Frame.input?, hbelow]
  unfold Pull.inInput at hm
  rw [hinput] at hm
  simp only at hm
  split at hm
  · cases hm
  · rename_i hstep
    cases hm
    exact h _ _ hstep

end Fails
end Pull
end QueryEngine
