import Mathlib
import Fabula.Number.Binary

/-! How floats compare. All floats but NaN are in order, and the order is the opposite one when they
change places; NaN is equal to nothing. -/

namespace Fabula.Number

open Float.Model Float.Model.UnpackedFloat

theorem magnitude_swap (e e' : Int) (m m' : Nat) :
    (compare e e').then (compare m m') = ((compare e' e).then (compare m' m)).swap := by
  have he : compare e e' = (compare e' e).swap := Std.OrientedOrd.eq_swap
  have hm : compare m m' = (compare m' m).swap := Std.OrientedOrd.eq_swap
  rw [he, hm, Ordering.swap_then]

theorem unpacked_compare_swap (x y : UnpackedFloat) :
    x.compare y = (y.compare x).map Ordering.swap := by
  cases x with
  | notANumber =>
    cases y with
    | infinity s | finite s => cases s <;> rfl
    | _ => rfl
  | infinity s =>
    cases y with
    | infinity s' | finite s' => cases s <;> cases s' <;> rfl
    | _ => cases s <;> rfl
  | zero =>
    cases y with
    | infinity s' | finite s' => cases s' <;> rfl
    | _ => rfl
  | finite s m e =>
    cases y with
    | infinity s' => cases s <;> cases s' <;> rfl
    | finite s' m' e' =>
      cases s with
      | negative =>
        cases s' with
        | negative => exact congrArg (fun o => some o.swap) (magnitude_swap e e' m m')
        | positive => rfl
      | positive =>
        cases s' with
        | negative => rfl
        | positive => exact congrArg some (magnitude_swap e e' m m')
    | _ => cases s <;> rfl

/-- Only NaN is not in order. -/
theorem exists_compare {u w : UnpackedFloat} (hu : u.isNaN = false) (hw : w.isNaN = false) :
    ∃ o, u.compare w = some o := by
  cases u with
  | notANumber => cases hu
  | infinity s =>
    cases w with
    | notANumber => cases hw
    | infinity s' => cases s <;> cases s' <;> exact ⟨_, rfl⟩
    | _ => cases s <;> exact ⟨_, rfl⟩
  | zero s =>
    cases w with
    | notANumber => cases hw
    | infinity s' | finite s' => cases s' <;> exact ⟨_, rfl⟩
    | zero s' => exact ⟨_, rfl⟩
  | finite s =>
    cases w with
    | notANumber => cases hw
    | infinity s' | finite s' => cases s <;> cases s' <;> exact ⟨_, rfl⟩
    | zero s' => cases s <;> exact ⟨_, rfl⟩

theorem beq_iff_compare {x y : Float} :
    (x == y) = true ↔ x.toModel.unpack.compare y.toModel.unpack = some .eq :=
  (beq_iff_eq : (x.toModel.unpack.compare y.toModel.unpack == some .eq) = true ↔ _)

theorem lt_iff_compare {x y : Float} :
    x < y ↔ x.toModel.unpack.compare y.toModel.unpack = some .lt := by
  show decide ((x.toModel.unpack.compare y.toModel.unpack == some .lt) = true) = true ↔ _
  rw [decide_eq_true_eq, beq_iff_eq]

theorem beq_of_isNaN {x : Float} (h : x.isNaN = true) (y : Float) : (x == y) = false := by
  rw [Float.isNaN_eq_decide_eq_nan, decide_eq_true_eq] at h
  rw [h, Float.nan_beq_eq_false]

end Fabula.Number
