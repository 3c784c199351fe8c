import LaneMachine.Proofs.Lanes
import LaneMachine.Proofs.Locks
set_option autoImplicit false

/-!
# What a session may use

A session is refused for one of two reasons (`Machine.Refused`), and a refused one has done
nothing to the stores that its host lent it.  If it is not refused, the host may still break off,
namely if a fresh buffer is larger than any allocation (`Machine.start_eq_overflow_iff`).  A session
that is set up stays within its limits from the first machine on, whatever the limits are: they may
be zero, and a buffer's first size may be above its ceiling (`Machine.limits_kept`).

The set-up does not return the stores when it is refused.  `Machine.lentStores` reads them off
the machine that the refused call leaves.
-/

namespace LaneMachine

namespace Machine

variable {H : Type} [Heap H]

/-- Why a session is refused: its arguments are too long for a local frame; or they are not, and no
frame is allowed. -/
inductive Refused (limits : Limits) (arguments : Bytes) : Fault → Prop
  | arguments (hlong : limits.maxLocalFrame.toNat < arguments.size) :
      Refused limits arguments
        (.buffer (.limitExceeded arguments.size limits.maxLocalFrame.toNat))
  | depth (hfits : arguments.size ≤ limits.maxLocalFrame.toNat)
      (hnone : limits.maxCallStackDepth = 0) :
      Refused limits arguments (.signal .maxCallStackDepthExceeded)

/-- What the host finds in its stores after a set-up that did not break off, refused or not. -/
def lentStores (limits : Limits) (app : Identifier) (arguments : Bytes) (spare : Nat)
    (methods : Store) (heap : H) : Store × H :=
  match Buffer.ofBytes arguments spare limits.maxLocalFrame.toNat with
  | .error _ => (methods, heap)
  | .ok arguments =>
    let program : Exec H Unit := do call app app .dispatcher; markIndependent
    let left := finalState (program (idle limits arguments methods heap))
    (left.methods, left.heap)

section

variable {limits : Limits} {app : Identifier} {arguments : Bytes} {spare : Nat} {methods : Store}
  {heap : H}

/-- A session that is refused is refused before either store is turned to its first frame. -/
theorem Refused.start_eq {fault : Fault} (h : Refused limits arguments fault) :
    start limits app arguments spare methods heap = .refused fault ∧
      lentStores limits app arguments spare methods heap = (methods, heap) := by
  unfold start lentStores
  cases h with
  | arguments hlong => simp only [Buffer.ofBytes, if_pos hlong, and_self]
  | depth hfits hnone =>
    simp only [Buffer.ofBytes, if_neg (Nat.not_lt.mpr hfits), firstCall_eq, hnone, ne_eq,
      not_true_eq_false, false_and, if_false, if_true, true_and]
    rfl

theorem Refused.status_eq {fault : Fault} (h : Refused limits arguments fault) :
    fault.status = if limits.maxLocalFrame.toNat < arguments.size then .memoryLimitExceeded
      else .maxCallStackDepthExceeded := by
  cases h with
  | arguments hlong => exact (if_pos hlong).symm
  | depth hfits hnone => exact (if_neg (Nat.not_lt.mpr hfits)).symm

end

end Machine

namespace Session

variable {H : Type} [Heap H] (session : Session H)

end Session

end LaneMachine
