import Fabula.Proofs.Story.Constants
import Fabula.Proofs.Value.Canonical

/-! Blocks are read back as they were written. An operation is written with one bit for each operand
and each block that it has, and the reader follows these bits. It goes no deeper than a bound, so
blocks may not stand inside one another more often than that. -/

namespace Fabula

mutual

def Operation.nesting : Operation → Nat
  | ⟨_, _, _, init, condition, step, success, failure⟩ =>
    max (innerNesting init) (max (innerNesting condition) (max (innerNesting step)
      (max (innerNesting success) (innerNesting failure))))

def operationsNesting : List Operation → Nat
  | [] => 0
  | op :: rest => max op.nesting (operationsNesting rest)

def innerNesting : Option (List Operation) → Nat
  | none => 0
  | some ops => operationsNesting ops + 1

end

mutual

def Operation.constants : Operation → List Value
  | ⟨_, first, second, init, condition, step, success, failure⟩ =>
    first.toList ++ second.toList ++ innerConstants init ++ innerConstants condition ++
      innerConstants step ++ innerConstants success ++ innerConstants failure

def operationsConstants : List Operation → List Value
  | [] => []
  | op :: rest => op.constants ++ operationsConstants rest

def innerConstants : Option (List Operation) → List Value
  | none => []
  | some ops => operationsConstants ops

end

/-- What a file can hold of a block: blocks inside one another down to the greatest depth, and
operands in the form in which they are read. -/
structure Block.Storable (block : Block) : Prop where
  nesting : operationsNesting block ≤ maxNesting
  constants : ∀ v ∈ operationsConstants block, v.Canonical

instance (block : Block) : Decidable block.Storable :=
  decidable_of_iff (operationsNesting block ≤ maxNesting ∧
      ∀ v ∈ operationsConstants block, v.Canonical)
    ⟨fun h => ⟨h.1, h.2⟩, fun h => ⟨h.nesting, h.constants⟩⟩

namespace Operation

variable {op : Operation} {block : Block}

theorem nesting_le_of_mem (h : op ∈ block) : op.nesting ≤ operationsNesting block := by
  induction block with
  | nil => cases h
  | cons first rest ih =>
    rw [operationsNesting]
    rcases List.mem_cons.mp h with rfl | h
    · exact Nat.le_max_left _ _
    · exact (ih h).trans (Nat.le_max_right _ _)

theorem nesting_lt_of_block? {slot : Slot} (h : op.block? slot = some block) :
    operationsNesting block < op.nesting := by
  cases op
  simp only [Operation.nesting]
  cases slot <;> obtain rfl := h <;> simp only [innerNesting] <;> omega

theorem constants_of_mem (h : op ∈ block) {v : Value} (hv : v ∈ op.constants) :
    v ∈ operationsConstants block := by
  induction block with
  | nil => cases h
  | cons first rest ih =>
    rw [operationsConstants, List.mem_append]
    rcases List.mem_cons.mp h with rfl | h
    · exact .inl hv
    · exact .inr (ih h)

theorem constants_of_block? {slot : Slot} (h : op.block? slot = some block) {v : Value}
    (hv : v ∈ operationsConstants block) : v ∈ op.constants := by
  cases op
  cases slot <;> obtain rfl := h <;> simp [Operation.constants, innerConstants, hv]

theorem first_mem_constants {v : Value} (h : op.first = some v) : v ∈ op.constants := by
  cases op
  obtain rfl := h
  simp [Operation.constants]

theorem second_mem_constants {v : Value} (h : op.second = some v) : v ∈ op.constants := by
  cases op
  obtain rfl := h
  simp [Operation.constants]

theorem second_of_listFree (h : op.listFree = true) :
    op.second.all (fun v => !v.isShared) = true := by
  cases op
  simp only [listFree, Bool.and_eq_true] at h
  exact h.1.1.1.1.1.2

end Operation

namespace Bytes

theorem operations_eq_flatMap (block : Block) : operations block = block.flatMap operation := by
  induction block with
  | nil => rfl
  | cons op block ih => rw [operations, ih, List.flatMap_cons]

theorem block_eq_counted (b : Block) : block b = counted operation b := by
  rw [block, counted, operations_eq_flatMap]

theorem innerBlock_some (b : Block) : innerBlock (some b) = block b := by
  rw [innerBlock, block]

/-- The three bytes of an operation, its operands, and its blocks in the order of their slots. -/
theorem operation_eq (op : Operation) :
    operation op = [op.opcode.byte] ++ ([op.operandFlags] ++ ([op.mask] ++
      (operand op.first ++ (operand op.second ++
        Slot.all.flatMap fun slot => innerBlock (op.block? slot))))) := by
  cases op
  simp [operation, Slot.all, Operation.block?]

theorem operation_ne_nil (op : Operation) : operation op ≠ [] := by simp [operation_eq]

end Bytes

namespace Operation

theorem operandFlags_bits (op : Operation) : op.operandFlags &&& ~~~3 = 0 := by
  unfold operandFlags
  generalize op.first.isSome = first
  generalize op.second.isSome = second
  revert first second
  decide

theorem first_flag (op : Operation) : (op.operandFlags &&& 1 != 0) = op.first.isSome := by
  unfold operandFlags
  generalize op.first.isSome = first
  generalize op.second.isSome = second
  revert first second
  decide

theorem second_flag (op : Operation) : (op.operandFlags &&& 2 != 0) = op.second.isSome := by
  unfold operandFlags
  generalize op.first.isSome = first
  generalize op.second.isSome = second
  revert first second
  decide

theorem mask_bits (op : Operation) : op.mask &&& ~~~31 = 0 := by
  simp only [mask, Slot.all, List.foldl_cons, List.foldl_nil]
  generalize (op.block? .init).isSome = init
  generalize (op.block? .condition).isSome = condition
  generalize (op.block? .step).isSome = step
  generalize (op.block? .success).isSome = success
  generalize (op.block? .failure).isSome = failure
  revert init condition step success failure
  decide

theorem inMask_mask (op : Operation) (slot : Slot) :
    slot.inMask op.mask = (op.block? slot).isSome := by
  simp only [mask, Slot.all, List.foldl_cons, List.foldl_nil]
  cases slot <;> generalize (op.block? .init).isSome = init <;>
    generalize (op.block? .condition).isSome = condition <;>
    generalize (op.block? .step).isSome = step <;>
    generalize (op.block? .success).isSome = success <;>
    generalize (op.block? .failure).isSome = failure <;>
    revert init condition step success failure <;> decide

/-- The operation with the block that another one has in a slot, if it has one. -/
def withBlockOf (op other : Operation) (slot : Slot) : Operation :=
  match other.block? slot with
  | none => op
  | some block => op.withBlock slot block

def bare (op : Operation) : Operation :=
  { opcode := op.opcode, first := op.first, second := op.second }

theorem foldl_withBlockOf (op : Operation) :
    Slot.all.foldl (fun acc slot => withBlockOf acc op slot) op.bare = op := by
  obtain ⟨_, _, _, init, condition, step, success, failure⟩ := op
  cases init <;> cases condition <;> cases step <;> cases success <;> cases failure <;> rfl

end Operation

namespace Reader

theorem takes_bits {what : String} {allowed b : UInt8} (h : b &&& ~~~allowed = 0) :
    Takes (bits what allowed) [b] b := Takes.tagged (if_pos h)

theorem takes_operand {v : Option Value}
    (h : ∀ w, v = some w → Takes constant (Bytes.constant w) w) :
    Takes (operand v.isSome) (Bytes.operand v) v := by
  cases v with
  | none => exact takes_pure none
  | some v => exact (h v rfl).map some

theorem takes_slot {op : Operation} {block : Reader Block} {slot : Slot}
    (h : ∀ b, op.block? slot = some b → Takes block (Bytes.block b) b) (acc : Operation) :
    Takes (if slot.inMask op.mask then do return acc.withBlock slot (← block) else pure acc)
      (Bytes.innerBlock (op.block? slot)) (acc.withBlockOf op slot) := by
  rw [op.inMask_mask]
  unfold Operation.withBlockOf
  cases hb : op.block? slot with
  | none => exact takes_pure acc
  | some b =>
    rw [Bytes.innerBlock_some]
    exact (h b hb).map (acc.withBlock slot)

theorem takes_first {op : Operation} (hc : ∀ v ∈ op.constants, v.Canonical)
    (hl : op.listFree = true) :
    Takes (operand op.first.isSome) (Bytes.operand op.first) op.first := by
  refine takes_operand fun v hv => ?_
  have hs := Operation.first_of_listFree hl
  rw [hv] at hs
  exact takes_constant (hc v (op.first_mem_constants hv)) (by simpa using hs)

theorem takes_second {op : Operation} (hc : ∀ v ∈ op.constants, v.Canonical)
    (hl : op.listFree = true) :
    Takes (operand op.second.isSome) (Bytes.operand op.second) op.second := by
  refine takes_operand fun v hv => ?_
  have hs := Operation.second_of_listFree hl
  rw [hv] at hs
  exact takes_constant (hc v (op.second_mem_constants hv)) (by simpa using hs)

theorem takes_operation {op : Operation} {block : Reader Block}
    (hc : ∀ v ∈ op.constants, v.Canonical) (hl : op.listFree = true)
    (hblock : ∀ slot b, op.block? slot = some b → Takes block (Bytes.block b) b) :
    Takes (operation block) (Bytes.operation op) op := by
  rw [Bytes.operation_eq]
  refine (Takes.tagged (Opcode.ofByte?_byte op.opcode)).bind ?_
  refine (takes_bits op.operandFlags_bits).bind ((takes_bits op.mask_bits).bind ?_)
  rw [op.first_flag, op.second_flag]
  refine (takes_first hc hl).bind ((takes_second hc hl).bind ?_)
  have hslots : Takes
      (Slot.all.foldlM (fun acc slot =>
        if slot.inMask op.mask then do return acc.withBlock slot (← block) else pure acc) op.bare)
      (Slot.all.flatMap fun slot => Bytes.innerBlock (op.block? slot))
      (Slot.all.foldl (fun acc slot => acc.withBlockOf op slot) op.bare) :=
    takes_foldlM _ _ fun _ slot _ _ => takes_slot (hblock slot) _
  rwa [op.foldl_withBlockOf] at hslots

/-- A block is read back if the bound is above its depth. -/
theorem takes_nestedBlock (levels : Nat) : ∀ block : Block, operationsNesting block < levels →
    (∀ v ∈ operationsConstants block, v.Canonical) → operationsListFree block = true →
    Takes (nestedBlock levels) (Bytes.block block) block := by
  induction levels with
  | zero => exact fun _ h => absurd h (Nat.not_lt_zero _)
  | succ levels ih =>
    intro block hn hc hl
    rw [Bytes.block_eq_counted]
    refine takes_items (fun op _ => Bytes.operation_ne_nil op) fun op hop => ?_
    have hfree := operationsListFree_iff.mp hl op hop
    have hconstants : ∀ v ∈ op.constants, v.Canonical := fun v hv =>
      hc v (op.constants_of_mem hop hv)
    refine takes_operation hconstants hfree fun slot b hb => ?_
    have hdeep := op.nesting_lt_of_block? hb
    have hop' := op.nesting_le_of_mem hop
    exact ih b (by omega) (fun v hv => hconstants v (op.constants_of_block? hb hv))
      (Operation.block_of_listFree hfree slot hb)

theorem takes_block {b : Block} (h : b.Storable) (hl : operationsListFree b = true) :
    Takes block (Bytes.block b) b :=
  takes_nestedBlock (maxNesting + 1) b (Nat.lt_succ_of_le h.nesting) h.constants hl

end Reader

end Fabula
