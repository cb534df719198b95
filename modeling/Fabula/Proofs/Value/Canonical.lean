import Fabula.Operator
import Fabula.Proofs.Bytes.Takes
import Fabula.Proofs.Bytes.Yields
import Fabula.Proofs.Text.Folding
import Fabula.Story.Decode

/-! Values in the one form in which they are kept: identities and names are folded, there is one
world, and zero has no sign. Operators give such values, and they are read as they were written. -/

namespace Fabula

theorem Number.unsignZero_unsignZero (x : Float) : unsignZero (unsignZero x) = unsignZero x := by
  by_cases h : x == 0.0
  · simp only [unsignZero, if_pos h]
    split <;> rfl
  · simp only [unsignZero, if_neg h]

namespace Value

/-- The value is in the form in which constructors and operations leave it. -/
def Canonical : Value → Prop
  | boolean _ | integer _ | string _ | list _ => True
  | float x => Number.unsignZero x = x
  | element .world identity => identity = worldIdentity
  | element _ identity | action identity | varName identity => Text.fold identity = identity

instance : DecidablePred Canonical
  | boolean _ | integer _ | string _ | list _ => inferInstanceAs (Decidable True)
  | float x => inferInstanceAs (Decidable (Number.unsignZero x = x))
  | element .world s => inferInstanceAs (Decidable (s = worldIdentity))
  | element .player s | element .room s | element .object s | element .container s | action s
  | varName s => inferInstanceAs (Decidable (Text.fold s = s))

/-- An element is referred to by its folded identity, and the world by its own. -/
theorem reference_of_canonical {kind : ElementKind} {identity : String}
    (h : (element kind identity).Canonical) : reference kind identity = element kind identity := by
  cases kind with
  | world =>
    have hw : identity = worldIdentity := h
    rw [hw]
    rfl
  | player | room | object | container =>
    have hf : Text.fold identity = identity := h
    simp only [reference, hf]

theorem isShared_eq_false_iff {v : Value} : v.isShared = false ↔ v.kind ≠ .list := by
  cases v with
  | element kind s => cases kind <;> simp [isShared, kind, ValueKind.ofElement]
  | _ => simp [isShared, kind]

theorem kind_element_ne (kind : ElementKind) (identity : String) :
    (element kind identity).kind ≠ .varName := by
  cases kind <;> simp [Value.kind, ValueKind.ofElement]

structure Literal (v : Value) : Prop where
  canonical : v.Canonical
  single : v.isShared = false

structure Simple (v : Value) : Prop where
  canonical : v.Canonical
  single : v.isShared = false
  bound : v.kind ≠ .varName

theorem simple_boolean (b : Bool) : (boolean b).Simple := ⟨trivial, rfl, by simp [kind]⟩

theorem simple_integer (i : Int64) : (integer i).Simple := ⟨trivial, rfl, by simp [kind]⟩

theorem simple_string (s : String) : (string s).Simple := ⟨trivial, rfl, by simp [kind]⟩

theorem simple_real (x : Float) : (real x).Simple :=
  ⟨Number.unsignZero_unsignZero x, rfl, by simp [real, kind]⟩

theorem simple_notANumber : notANumber.Simple := ⟨by decide, rfl, by decide⟩

theorem simple_count (n : Nat) : (count n).Simple := simple_integer _

theorem simple_element (e : ElementRef) : e.value.Simple := by
  obtain ⟨kind, identity⟩ := e
  cases kind with
  | world => exact ⟨rfl, rfl, kind_element_ne _ _⟩
  | _ => exact ⟨Text.fold_fold identity, rfl, kind_element_ne _ _⟩

theorem simple_absolute (v : Value) : v.absolute.Simple := by
  unfold absolute
  split
  · exact simple_integer _
  · split
    · exact simple_real _
    · exact simple_notANumber

theorem simple_negate (v : Value) : v.negate.Simple := by
  unfold negate
  split
  · exact simple_boolean _
  · exact simple_integer _
  · split
    · exact simple_real _
    · exact simple_notANumber

theorem simple_logicalNot (heap : Heap) (v : Value) : (v.logicalNot heap).Simple := by
  unfold logicalNot
  split
  · exact simple_boolean _
  · exact simple_notANumber

theorem simple_complement (v : Value) : v.complement.Simple := by
  unfold complement
  split
  · exact simple_boolean _
  · split
    · exact simple_integer _
    · exact simple_notANumber

theorem simple_arithmetic {f : Bool → Bool → Bool} {g : Int64 → Int64 → Int64}
    {k : Float → Float → Float} (v w : Value) : (arithmetic f g k v w).Simple := by
  unfold arithmetic
  split
  · exact simple_boolean _
  · exact simple_integer _
  · split
    · exact simple_real _
    · exact simple_notANumber

theorem simple_overZero (x : Float) : (overZero x).Simple := by
  unfold overZero
  split
  · exact simple_notANumber
  · split
    · exact ⟨by decide, rfl, by simp [kind]⟩
    · exact ⟨by decide, rfl, by simp [kind]⟩

theorem simple_division {f : Int64 → Int64 → Int64} {g : Float → Float → Float} (v w : Value) :
    (division f g v w).Simple := by
  unfold division
  split
  · split
    · exact simple_overZero _
    · exact simple_integer _
  · split
    · exact simple_notANumber
    · split
      · exact simple_overZero _
      · exact simple_real _

theorem simple_add (heap : Heap) (v w : Value) : (v.add heap w).Simple := by
  unfold add
  split
  · exact simple_string _
  · exact simple_arithmetic v w

theorem simple_power (v w : Value) : (v.power w).Simple := by
  unfold power powerWith
  dsimp only
  split
  · split
    · exact simple_real _
    · exact simple_integer _
  · split
    · exact simple_real _
    · exact simple_notANumber

theorem simple_bitwise {f : Bool → Bool → Bool} {g : Int64 → Int64 → Int64} (v w : Value) :
    (bitwise f g v w).Simple := by
  unfold bitwise
  split
  · exact simple_boolean _
  · split
    · exact simple_integer _
    · exact simple_notANumber

theorem simple_shift {f : Int64 → Int64 → Int64} (v w : Value) : (shift f v w).Simple := by
  unfold shift
  split
  · exact simple_integer _
  · exact simple_notANumber

theorem simple_logical {f : Bool → Bool → Bool} (heap : Heap) (v w : Value) :
    (logical heap f v w).Simple := by
  unfold logical
  split
  · exact simple_boolean _
  · exact simple_notANumber

end Value

namespace Operator

open Value

theorem simple_applyUnary (op : Operator) (heap : Heap) (v : Value) :
    (op.applyUnary heap v).Simple := by
  cases op with
  | absolute => exact simple_absolute v
  | negate => exact simple_negate v
  | logicalNot => exact simple_logicalNot heap v
  | complement => exact simple_complement v
  | _ => exact simple_notANumber

theorem simple_applyBinary (op : Operator) (heap : Heap) (v w : Value) :
    (op.applyBinary heap v w).Simple := by
  cases op with
  | absolute | negate | logicalNot | complement => exact simple_notANumber
  | add => exact simple_add heap v w
  | subtract | multiply => exact simple_arithmetic v w
  | divide | modulo => exact simple_division v w
  | power => exact simple_power v w
  | bitAnd | bitOr | bitXor => exact simple_bitwise v w
  | shiftLeft | shiftRight => exact simple_shift v w
  | shiftRightPadded =>
    show (shift (fun x n => (x.toUInt64 >>> n.toUInt64).toInt64) v w).Simple
    exact simple_shift v w
  | logicalAnd | logicalOr | logicalXor => exact simple_logical heap v w
  | equal | notEqual | strictEqual | strictNotEqual | less | lessOrEqual | greater
  | greaterOrEqual => exact simple_boolean _

end Operator

namespace Reader

theorem takes_scalar {v : Value} (h : v.Canonical) (hl : v.isShared = false) :
    Takes (scalar v.kind) (Bytes.scalar v) v := by
  cases v with
  | boolean b => exact (takes_flag b).map Value.boolean
  | integer i => exact (takes_integer i).map Value.integer
  | float x =>
    have hx : Number.unsignZero x = x := h
    have ht := (takes_float x).map Value.real
    rwa [Value.real, hx] at ht
  | string s => exact (takes_text s).map Value.string
  | list => cases hl
  | action s =>
    have hs : Text.fold s = s := h
    have ht := (takes_text s).map Value.actionNamed
    rwa [Value.actionNamed, hs] at ht
  | varName s =>
    have hs : Text.fold s = s := h
    have ht := (takes_text s).map Value.variableNamed
    rwa [Value.variableNamed, hs] at ht
  | element kind s =>
    have ht := (takes_text s).map (Value.reference kind)
    rw [Value.reference_of_canonical h] at ht
    cases kind with
    | world =>
      have hw : s = worldIdentity := h
      subst hw
      have hb : Takes (text >>= fun identity =>
          if identity = worldIdentity then pure Value.world else fail (.unknownElement identity))
          (Bytes.text worldIdentity ++ []) Value.world :=
        (takes_text worldIdentity).bind (by rw [if_pos rfl]; exact takes_pure _)
      rwa [List.append_nil] at hb
    | player | room | object | container => exact ht

theorem takes_constant {v : Value} (h : v.Canonical) (hl : v.isShared = false) :
    Takes constant (Bytes.constant v) v := by
  have hk := Value.isShared_eq_false_iff.mp hl
  refine (Takes.tagged (ValueKind.ofTag?_tag v.kind)).bind ?_
  rw [if_neg hk]
  exact takes_scalar h hl

theorem yields_scalar (kind : ValueKind) : Yields (scalar kind) Value.Literal := by
  have hfold : ∀ s : String, Text.fold (Text.fold s) = Text.fold s := Text.fold_fold
  cases kind with
  | list => exact yields_fail _
  | world =>
    refine yields_after fun identity => ?_
    split
    · exact yields_pure ⟨rfl, rfl⟩
    · exact yields_fail _
  | float => exact yields_after fun x => yields_pure ⟨Number.unsignZero_unsignZero x, rfl⟩
  | boolean | integer | string => exact yields_after fun x => yields_pure ⟨trivial, rfl⟩
  | object | player | room | container | action | varName =>
    exact yields_after fun s => yields_pure ⟨hfold s, rfl⟩

theorem yields_constant : Yields constant Value.Literal := by
  refine yields_after fun kind => ?_
  split
  · exact yields_fail _
  · exact yields_scalar kind

end Reader

end Fabula
