import QueryEngine.Proofs.Pull.Fails
import QueryEngine.Pull.Buffered
import QueryEngine.Pull.Grouping
import QueryEngine.Pull.Pairing

/-! What steps leave as it was, however they end.

A step preserves what holds of the frames that it leaves whenever it held before, whether
the step succeeds or fails. What is said of the cell alone no reading of an input touches;
so an operator that fails while it reads an input has the cell with which it began, but
for the bytes that it holds. -/
namespace QueryEngine

namespace Pull
variable {α β : Type} {I I' : Frame → Prop} {E E' : Failure → Frame → Prop}

/-- What a step leaves from `f`: `I` tells of it where the step succeeds, `E` where it fails. -/
def Leaves (m : Pull α) (f : Frame) (I : Frame → Prop) (E : Failure → Frame → Prop) : Prop :=
  (∀ a g, m f = .ok a g → I g) ∧ Fails m f E

theorem Leaves.mono {m : Pull α} {f : Frame} (hm : Leaves m f I' E') (hI : ∀ g, I' g → I g) (hE : ∀ e g, E' e g → E e g) :
    Leaves m f I E :=
  ⟨fun a g hrun => hI g (hm.1 a g hrun), hm.2.mono hE⟩

/-- What is known of a first step is at hand in the next. -/
theorem Leaves.bind_run {m : Pull α} {k : α → Pull β} {f : Frame} (hm : Leaves m f I' E)
    (hk : ∀ a g, m f = .ok a g → I' g → Leaves (k a) g I E) : Leaves (m >>= k) f I E := by
  refine ⟨fun b g hrun => ?_, hm.2.bind fun a g hrun => (hk a g hrun (hm.1 a g hrun)).2⟩
  obtain ⟨a, g', hfirst, hrest⟩ := run_bind_eq_ok.mp hrun
  exact (hk a g' hfirst (hm.1 a g' hfirst)).1 b g hrest

theorem Leaves.bind {m : Pull α} {k : α → Pull β} {f : Frame} (hm : Leaves m f I' E)
    (hk : ∀ a g, I' g → Leaves (k a) g I E) : Leaves (m >>= k) f I E := hm.bind_run fun a g _ => hk a g

/-- A first step whose outcome is known. -/
theorem Leaves.step {m : Pull α} {k : α → Pull β} {f g : Frame} {a : α} (hm : m f = .ok a g)
    (h : Leaves (k a) g I E) : Leaves (m >>= k) f I E := by
  refine ⟨fun b g' hrun => ?_, .step hm h.2⟩
  rw [run_bind, hm] at hrun
  exact h.1 b g' hrun

/-- What is to hold between steps, and what at least is to hold where one fails. -/
structure Promise where
  holds : Frame → Prop
  left : Failure → Frame → Prop
  le : ∀ e g, holds g → left e g

/-- The same holds where a step fails. -/
def Promise.always (I : Frame → Prop) : Promise := ⟨I, fun _ => I, fun _ _ h => h⟩

instance : Coe (Frame → Prop) Promise := ⟨Promise.always⟩

/-- The step keeps the promise, however it ends. -/
def Preserves (m : Pull α) (J : Promise) : Prop := ∀ f, J.holds f → Leaves m f J.holds J.left

namespace Preserves
variable {J : Promise} {m : Pull α} {k : α → Pull β}

theorem pure (a : α) : Preserves (pure a) J := fun _ hf =>
  ⟨fun _ _ hm => (by cases hm; exact hf), .pure⟩

theorem throw (e : Failure) : Preserves (throw e : Pull α) J := fun _ hf =>
  ⟨fun _ _ hm => (by cases hm), .throw (J.le _ _ hf)⟩

theorem fail (e : QueryError) : Preserves (Pull.fail e : Pull α) J := throw _

/-- Behind a failure nothing is done. -/
theorem fail_bind (e : QueryError) (k : α → Pull β) : Preserves (Pull.fail e >>= k) J := fun f hf =>
  ⟨fun _ _ hm => (by cases hm), fun _ _ hm => (by cases hm; exact J.le _ _ hf)⟩

/-- What a step leaves that preserves `I`, where `E` asks for no more. -/
theorem leaves {f : Frame} (hm : Preserves m J) (hf : J.holds f) (hE : ∀ e g, J.left e g → E e g) :
    Leaves m f J.holds E :=
  (hm f hf).mono (fun _ hg => hg) hE

theorem bind (hm : Preserves m J) (hk : ∀ a, Preserves (k a) J) : Preserves (m >>= k) J :=
  fun f hf => (hm f hf).bind fun a => hk a

theorem ite {c : Prop} [Decidable c] {m' : Pull α} (hm : Preserves m J) (hm' : Preserves m' J) :
    Preserves (if c then m else m') J := by
  split
  · exact hm
  · exact hm'

theorem lift (x : Except Failure α) : Preserves (liftM x) J := by
  refine fun f hf => ⟨fun a g hm => ?_, .lift fun e _ => J.le e f hf⟩
  obtain ⟨_, rfl⟩ := run_lift_eq_ok.mp hm
  exact hf

theorem liftQuery (x : Except QueryError α) : Preserves (liftM x) J := by
  refine fun f hf => ⟨fun a g hm => ?_, .liftQuery fun e _ => J.le (.error e) f hf⟩
  obtain ⟨_, rfl⟩ := run_liftQuery_eq_ok.mp hm
  exact hf

theorem get : Preserves MonadState.get J := fun _ hf =>
  ⟨fun _ _ hm => (by cases hm; exact hf), .of_ok rfl⟩

theorem modify {change : Frame → Frame} (h : ∀ f, J.holds f → J.holds (change f)) : Preserves (modify change) J :=
  fun f hf => ⟨fun _ _ hm => (by cases hm; exact h f hf), .of_ok rfl⟩

theorem out : Preserves out J := get.bind fun _ => pure _

theorem reserve (h : ∀ f g, Booked f g → J.holds f → J.holds g) (bytes : Nat) : Preserves (reserve bytes) J :=
  fun f hf => ⟨fun a g hm => h f g ((Agree.reserve bytes).2 a g hm) hf, .reserve bytes fun e _ => J.le e f hf⟩

theorem filling {step : Filling α} (h : ∀ f d, J.holds f → J.holds { f with out := d }) : Preserves (filling step) J :=
  fun f hf => ⟨(Agree.filling fun _ d _ => h f d hf).2, .filling fun e d _ => J.le e _ (h f d hf)⟩

theorem inInput {name : String} {out : Chunk} {after : Frame → Frame → Frame} {step : Pull Unit}
    (h : ∀ f cell below, J.holds f → f.below = cell :: below →
      (∀ a g, step ⟨cell, below, f.session, out⟩ = .ok a g → J.holds (after f g)) ∧
        Fails step ⟨cell, below, f.session, out⟩ fun e g => J.left e (after f g)) :
    Preserves (inInput name out after step) J := by
  intro f hf
  cases hbelow : f.below with
  | nil =>
    have hnone : f.input? out = none := by rw [Frame.input?, hbelow]
    have hinput : Pull.inInput name out after step f = .error (.error (.internal (.noChildState name))) f := by
      rw [Pull.inInput, hnone]
    refine ⟨fun a g hm => ?_, fun e g hm => ?_⟩
    · cases hinput.symm.trans hm
    · cases hinput.symm.trans hm
      exact J.le _ _ hf
  | cons cell below =>
    obtain ⟨hok, hfails⟩ := h f cell below hf hbelow
    refine ⟨(Agree.inInput fun input hin => Agree.of_ok fun a g hg => ?_).2, .inInput hbelow hfails⟩
    rw [Frame.input?, hbelow] at hin
    cases hin
    exact hok a g hg

end Preserves
end Pull

/-! ### Operators at work -/

namespace Operator
open Pull
variable {J : Promise} {input : Operator}

section
variable (hreserve : ∀ bytes, Preserves (Pull.reserve bytes) J)
include hreserve

theorem preserves_drain (hread : Preserves (inInput input.name Chunk.fresh Frame.afterInput input.pull) J) :
    Preserves input.drain J := by
  have hinto (rounds : Nat) (collection : Collection) : Preserves (input.drainInto rounds collection) J := by
    induction rounds generalizing collection with
    | zero => exact .throw _
    | succ rounds ih =>
      rw [drainInto]
      refine hread.bind fun chunk => .ite (.pure _) (.bind (.lift _) fun appended => ?_)
      exact (hreserve _).bind fun _ => ih _
  exact (Preserves.get.bind fun _ => .pure _).bind fun rounds => hinto rounds _

theorem preserves_drainOwn (hread : Preserves (inInput input.name Chunk.fresh Frame.afterInput input.pull) J)
    (name : String) : Preserves (drainOwn name input) J :=
  Preserves.get.bind fun _ => .ite (.bind (.fail _) fun _ => preserves_drain hreserve hread) (preserves_drain hreserve hread)

theorem preserves_sortInput (hread : Preserves (inInput input.name Chunk.fresh Frame.afterInput input.pull) J)
    (keys : List SortKey) : Preserves (sortInput keys input) J :=
  (preserves_drainOwn hreserve hread _).bind fun _ => .bind (.lift _) fun _ => .bind (.lift _) fun _ => .pure _

theorem preserves_windowInput (hread : Preserves (inInput input.name Chunk.fresh Frame.afterInput input.pull) J)
    (calls : List WindowCall) : Preserves (windowInput calls input) J := by
  have hcolumns (chunk : Chunk) (calls : List WindowCall) : Preserves (windowColumns chunk calls) J := by
    induction calls with
    | nil => exact .pure _
    | cons call calls ih =>
      exact .bind (.lift _) fun _ => (hreserve _).bind fun _ => ih.bind fun _ => .pure _
  refine (preserves_drainOwn hreserve hread _).bind fun _ => .bind (.lift _) fun _ => .ite (.pure _) ?_
  exact .bind (.liftQuery _) fun _ => .bind (.lift _) fun _ => (hcolumns _ _).bind fun _ => .pure _

theorem preserves_groupChunk (keys : List Expr) (calls : List AggregateCall) (groups : KeyMap Group) (chunk : Chunk) :
    Preserves (groupChunk keys calls groups chunk) J := by
  have hrow (keyColumns : List Column) (arguments : List (Option Column)) (groups : KeyMap Group) (r : Nat) :
      Preserves (groupRow calls keyColumns arguments groups r) J := by
    unfold groupRow
    refine .bind (.liftQuery _) fun key => ?_
    split
    · exact .bind (.pure _) fun _ => .bind (.liftQuery _) fun _ => .pure _
    · exact (hreserve _).bind fun _ => .bind (.pure _) fun _ => .bind (.liftQuery _) fun _ => .pure _
  have hrows (keyColumns : List Column) (arguments : List (Option Column)) (groups : KeyMap Group) (rs : List Nat) :
      Preserves (groupRows calls keyColumns arguments groups rs) J := by
    induction rs generalizing groups with
    | nil => exact .pure _
    | cons r rs ih => exact (hrow _ _ _ _).bind fun _ => ih _
  unfold groupChunk
  rw [mapM_lift]
  exact .bind (.lift _) fun _ => .bind (.lift _) fun _ => hrows _ _ _ _

theorem preserves_groupInput (hfetch : Preserves input.fetch J) (keys : List Expr) (keyTypes : List SqlType)
    (calls : List AggregateCall) : Preserves (groupInput keys keyTypes calls input) J := by
  have hchunks (rounds : Nat) (groups : KeyMap Group) : Preserves (groupChunks keys calls input rounds groups) J := by
    induction rounds generalizing groups with
    | zero => exact .throw _
    | succ rounds ih =>
      rw [groupChunks]
      exact hfetch.bind fun chunk => .ite (.pure _) ((preserves_groupChunk hreserve _ _ _ _).bind fun _ => ih _)
  exact (Preserves.get.bind fun _ => .pure _).bind fun _ => (hchunks _ _).bind fun _ => .bind (.liftQuery _) fun _ => .pure _

end

end Operator
end QueryEngine
