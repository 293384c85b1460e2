import EchOS.Lib.Worklist
import EchOS.Net.EbpfVm

/-! The eBPF verifier of `net/ebpf.rs`: control-flow checks and an abstract interpretation of
the registers and the stack by a worklist. -/

namespace EchOS.Net.Ebpf

def verifierComplexityLimit : ℕ := 1000000
def verifierCtxMaxAccess : ℤ := 256
def bpfMaxInsns : ℕ := 4096

inductive VerifierRegKind
  | uninit
  | scalar
  | ctxPtr
  | stackPtr
  | mapFd (mapId : BitVec 32)
  | mapValuePtr
  deriving DecidableEq

structure VerifierRegState where
  kind : VerifierRegKind
  stackOffset : ℤ
  deriving DecidableEq

namespace VerifierRegState

def uninit : VerifierRegState := ⟨.uninit, 0⟩
def scalar : VerifierRegState := ⟨.scalar, 0⟩
def ctx : VerifierRegState := ⟨.ctxPtr, 0⟩
def stackFp : VerifierRegState := ⟨.stackPtr, 0⟩
def mapFd (mapId : BitVec 32) : VerifierRegState := ⟨.mapFd mapId, 0⟩
def mapValuePtr : VerifierRegState := ⟨.mapValuePtr, -64⟩

/-- Two stack pointers become the frame pointer, whatever their offsets. -/
def merge (lhs rhs : VerifierRegState) : VerifierRegState :=
  match lhs.kind, rhs.kind with
  | .uninit, _ => .uninit
  | _, .uninit => .uninit
  | .scalar, .scalar => .scalar
  | .ctxPtr, .ctxPtr => .ctx
  | .stackPtr, .stackPtr => .stackFp
  | .mapFd a, .mapFd b => if a = b then .mapFd a else .scalar
  | .mapValuePtr, .mapValuePtr => .mapValuePtr
  | _, _ => .scalar

end VerifierRegState

/-- Eleven registers, 512 stack bytes and 64 spill slots. -/
structure VerifierState where
  regs : ℕ → VerifierRegState
  stackInit : ℕ → Bool
  stackSpill : ℕ → Option VerifierRegState

variable (state : VerifierState)

namespace VerifierState

def entry : VerifierState where
  regs r := if r = 1 then .ctx else if r = 10 then .stackFp else .uninit
  stackInit _ := false
  stackSpill _ := none

def setReg (r : ℕ) (v : VerifierRegState) : VerifierState :=
  { state with regs := fun k => if k = r then v else state.regs k }

def regReadable (r : ℕ) : Bool :=
  r < 11 && (state.regs r).kind != .uninit

def stackBytesInitialized (start size : ℕ) : Bool :=
  (List.range size).all fun i => state.stackInit (start + i)

def clearSpillsForStackRange (start size : ℕ) : VerifierState :=
  { state with
    stackSpill := fun slot =>
      if start / 8 ≤ slot ∧ slot ≤ (start + size - 1) / 8 then none else state.stackSpill slot }

def markStackWrite (start size : ℕ) : VerifierState :=
  clearSpillsForStackRange
    { state with
      stackInit := fun k => if start ≤ k ∧ k < start + size then true else state.stackInit k }
    start size

def setSpill (slot : ℕ) (v : VerifierRegState) : VerifierState :=
  { state with stackSpill := fun k => if k = slot then some v else state.stackSpill k }

def invalidateSpillsForUninitializedBytes : VerifierState :=
  { state with
    stackSpill := fun slot =>
      if state.stackBytesInitialized (slot * 8) 8 then state.stackSpill slot else none }

/-- Spills survive only where both sides agree. -/
def mergeSpill (lhs rhs : Option VerifierRegState) : Option VerifierRegState :=
  if lhs = rhs then lhs else none

/-- The merged state before its spills are checked; R10 stays the frame pointer. -/
def merged (state incoming : VerifierState) : VerifierState where
  regs r := if r = 10 then .stackFp else (state.regs r).merge (incoming.regs r)
  stackInit k := state.stackInit k && incoming.stackInit k
  stackSpill slot := mergeSpill (state.stackSpill slot) (incoming.stackSpill slot)

def changedBy (state incoming : VerifierState) : Bool :=
  (List.range 11).any (fun r => (state.regs r).merge (incoming.regs r) != state.regs r) ||
  (List.range bpfStackSize).any
    (fun k => (state.stackInit k && incoming.stackInit k) != state.stackInit k) ||
  (List.range (bpfStackSize / 8)).any
    (fun slot => mergeSpill (state.stackSpill slot) (incoming.stackSpill slot) !=
      state.stackSpill slot) ||
  (state.regs 10).merge (incoming.regs 10) != .stackFp

/-- The merged state, or `none` if nothing changes. -/
def mergeFrom (state incoming : VerifierState) : Option VerifierState :=
  if state.changedBy incoming then
    some (state.merged incoming).invalidateSpillsForUninitializedBytes
  else none

end VerifierState

def verifierStackAccessStart (baseStackOffset off : ℤ) (size : ℕ) : Option ℕ :=
  let start := bpfStackSize + baseStackOffset + off
  if start < 0 ∨ bpfStackSize < start + size then none
  else if 1 < size ∧ start.toNat % size ≠ 0 then none
  else some start.toNat

def verifierCtxAccessValid (off : ℤ) (size : ℕ) (write : Bool) : Bool :=
  !write && 0 ≤ off && off + size ≤ verifierCtxMaxAccess &&
    (size ≤ 1 || off.toNat % size == 0)

def verifierIsSupportedHelper (helperId : ℤ) : Bool := 1 ≤ helperId && helperId ≤ 3

/-- Helpers read their first arguments; those without a list here take none. -/
def verifierHelperArgs (helperId : ℤ) : Option (List ℕ) :=
  if helperId = 1 then some [1, 2]
  else if helperId = 2 then some [1, 2, 3]
  else if helperId = 3 then some [1, 2]
  else if helperId = 12 then some [1, 2, 3]
  else if helperId ∈ [4, 5, 6, 7, 13, 14, 16, 23] then some []
  else none

def verifierValidateHelperArgs (helperId : ℤ) : Except EbpfError Unit :=
  match verifierHelperArgs helperId with
  | none => .error .callError
  | some args => if args.all state.regReadable then .ok () else .error .verifierRejected

variable (insn : DecodedInsn)

def verifierCheckRegisterBounds : Except EbpfError Unit :=
  if 10 < insn.dst ∨ 10 < insn.src then .error .invalidRegister else .ok ()

def verifierCheckOpcodeSupport : Except EbpfError Unit :=
  match insn.cls with
  | .alu => if insn.aluOp.isSome then .ok () else .error .invalidOpcode
  | .ldx | .stx =>
    if (accessSizeBytes insn.size).isNone then .error .invalidOpcode else .ok ()
  | .jmp =>
    match insn.jmpOp with
    | none => .error .invalidOpcode
    | some op =>
      if op = .call ∧ insn.off ≠ 0 then .error .verifierRejected
      else if op = .exit ∧ (insn.dst ≠ 0 ∨ insn.src ≠ 0 ∨ insn.off ≠ 0 ∨ insn.imm ≠ 0) then
        .error .verifierRejected
      else .ok ()
  | _ => .error .invalidOpcode

/-- The instructions control can pass to: fall-through or unconditional target first, then
the target of a conditional jump. -/
abbrev Successors := Option ℕ × Option ℕ

def orReject (next : Option ℕ) : Except EbpfError ℕ :=
  match next with
  | some pc => .ok pc
  | none => .error .verifierRejected

def fallThrough (pc len : ℕ) : Except EbpfError ℕ :=
  orReject (if pc + 1 < len then some (pc + 1) else none)

def verifierSuccessors (len pc : ℕ) (insn : DecodedInsn) : Except EbpfError Successors :=
  if insn.cls = .jmp then
    match insn.jmpOp with
    | some .exit => .ok (none, none)
    | some .call => do
      let next ← fallThrough pc len
      return (some next, none)
    | some .ja => do
      let target ← orReject (checkedJumpTarget pc insn.off len)
      return (some target, none)
    | _ => do
      let target ← orReject (checkedJumpTarget pc insn.off len)
      let next ← fallThrough pc len
      return (some next, some target)
  else do
    let next ← fallThrough pc len
    return (some next, none)

def successorsFrom (len : ℕ) : ℕ → List DecodedInsn → Except EbpfError (List Successors)
  | _, [] => .ok []
  | pc, insn :: rest => do
    let head ← verifierSuccessors len pc insn
    let tail ← successorsFrom len (pc + 1) rest
    return head :: tail

def verifierBuildCfgSuccessors (decoded : List DecodedInsn) : Except EbpfError (List Successors) :=
  successorsFrom decoded.length 0 decoded

/-- Depth-first marking from a stack of nodes; a node is expanded once, so the steps given
below are enough to empty the stack. -/
def markFrom (edges : ℕ → List ℕ) : ℕ → List Bool → List ℕ → List Bool
  | 0, marks, _ => marks
  | _, marks, [] => marks
  | steps + 1, marks, pc :: stack =>
    if marks.getD pc false then markFrom edges steps marks stack
    else markFrom edges steps (marks.set pc true) ((edges pc).reverse ++ stack)

variable (successors : List Successors)

def successorList (pc : ℕ) : List ℕ :=
  let edges := successors.getD pc (none, none)
  edges.1.toList ++ edges.2.toList

def verifierReachableMask : List Bool :=
  markFrom (successorList successors) (2 * successors.length + 1)
    (List.replicate successors.length false) [0]

def predecessorList (reachable : List Bool) (pc : ℕ) : List ℕ :=
  (List.range successors.length).flatMap fun prev =>
    if reachable.getD prev false && reachable.getD pc false then
      (successorList successors prev).filterMap fun next => if next = pc then some prev else none
    else []

def verifierCanReachExitMask (reachable : List Bool) (exits : List ℕ) : List Bool :=
  markFrom (predecessorList successors reachable) (exits.length + 2 * successors.length)
    (List.replicate successors.length false) exits.reverse

def rejectUnless (b : Bool) : Except EbpfError Unit :=
  if b then .ok () else .error .verifierRejected

/-- Pointer arithmetic on the stack pointer moves its offset by an immediate. -/
def verifierMoveStackPtr (op : AluOp) (state : VerifierState) : Except EbpfError VerifierState :=
  if (op = .add ∨ op = .sub) ∧ !insn.usesSrcReg then
    let delta := if op = .add then insn.imm.toInt else -insn.imm.toInt
    let nextOffset := (state.regs insn.dst).stackOffset + delta
    if nextOffset < -2 ^ 31 ∨ 2 ^ 31 - 1 < nextOffset then .error .verifierRejected
    else .ok (state.setReg insn.dst { state.regs insn.dst with stackOffset := nextOffset })
  else .error .verifierRejected

def verifierApplyAlu (op : AluOp) (state : VerifierState) : Except EbpfError VerifierState :=
  if insn.dst = 10 then .error .verifierRejected
  else if op = .mov then
    if insn.usesSrcReg then do
      rejectUnless (state.regReadable insn.src)
      return state.setReg insn.dst (state.regs insn.src)
    else .ok (state.setReg insn.dst .scalar)
  else do
    rejectUnless (state.regReadable insn.dst)
    if insn.usesSrcReg then
      rejectUnless (state.regReadable insn.src)
      rejectUnless ((state.regs insn.dst).kind != .stackPtr)
      rejectUnless ((state.regs insn.dst).kind != .ctxPtr)
    else if op = .div ∨ op = .mod then
      rejectUnless (insn.imm != 0)
    match (state.regs insn.dst).kind with
    | .stackPtr => verifierMoveStackPtr insn op state
    | .scalar => .ok (state.setReg insn.dst .scalar)
    | .mapFd _ => .ok (state.setReg insn.dst .scalar)
    | _ => .error .verifierRejected

def verifierApplyLdx (state : VerifierState) : Except EbpfError VerifierState :=
  match accessSizeBytes insn.size with
  | none => .error .invalidOpcode
  | some size => do
    rejectUnless (insn.dst != 10 && state.regReadable insn.src)
    match (state.regs insn.src).kind with
    | .stackPtr =>
      match verifierStackAccessStart (state.regs insn.src).stackOffset insn.off size with
      | none => .error .memoryAccess
      | some start => do
        rejectUnless (state.stackBytesInitialized start size)
        let loaded := if size = 8 ∧ start % 8 = 0 then state.stackSpill (start / 8) else none
        return state.setReg insn.dst (loaded.getD .scalar)
    | .ctxPtr => do
      rejectUnless (verifierCtxAccessValid insn.off size false)
      return state.setReg insn.dst .scalar
    | _ => .error .verifierRejected

def verifierApplyStx (state : VerifierState) : Except EbpfError VerifierState :=
  match accessSizeBytes insn.size with
  | none => .error .invalidOpcode
  | some size => do
    rejectUnless (state.regReadable insn.src && state.regReadable insn.dst)
    rejectUnless ((state.regs insn.dst).kind == .stackPtr)
    match verifierStackAccessStart (state.regs insn.dst).stackOffset insn.off size with
    | none => .error .memoryAccess
    | some start =>
      let marked := state.markStackWrite start size
      if size = 8 ∧ start % 8 = 0 then .ok (marked.setSpill (start / 8) (state.regs insn.src))
      else .ok marked

/-- After a helper call R1 to R5 are gone and R0 holds a number. -/
def VerifierState.afterCall : VerifierState :=
  { state with
    regs := fun r => if r = 0 then .scalar else if r ≤ 5 then .uninit else state.regs r }

def verifierTransferJump (op : JmpOp) (state : VerifierState)
    (successors : Successors) : Except EbpfError (List (ℕ × VerifierState)) :=
  match op with
  | .exit => do
    rejectUnless (state.regReadable 0 && (state.regs 0).kind == .scalar)
    return []
  | .call =>
    if verifierIsSupportedHelper insn.imm.toInt then do
      verifierValidateHelperArgs state insn.imm.toInt
      let next ← orReject successors.1
      return [(next, state.afterCall)]
    else .error .callError
  | _ => do
    if op ≠ .ja then
      rejectUnless (state.regReadable insn.dst)
      if insn.usesSrcReg then rejectUnless (state.regReadable insn.src)
    return (successors.1.toList ++ successors.2.toList).map fun next => (next, state)

def verifierTransferInstruction (state : VerifierState)
    (successors : Successors) : Except EbpfError (List (ℕ × VerifierState)) :=
  let thenNext (result : Except EbpfError VerifierState) := do
    let state ← result
    let next ← orReject successors.1
    return [(next, state)]
  match insn.cls with
  | .alu =>
    -- an unknown operation was rejected before the analysis
    match insn.aluOp with
    | some op => thenNext (verifierApplyAlu insn op state)
    | none => .error .verifierRejected
  | .ldx => thenNext (verifierApplyLdx insn state)
  | .stx => thenNext (verifierApplyStx insn state)
  | .jmp =>
    match insn.jmpOp with
    | some op => verifierTransferJump insn op state successors
    | none => .error .invalidOpcode
  | _ => .error .invalidOpcode

def verifierAnalysis (decoded : List DecodedInsn) (successors : List Successors) :
    Worklist.Analysis ℕ VerifierState EbpfError where
  transfer pc state :=
    verifierTransferInstruction (decoded.getD pc (decodeInstruction 0)) state
      (successors.getD pc (none, none))
  merge := VerifierState.mergeFrom
  outOfSteps := .infiniteLoop

def verifierCheckInsn : Except EbpfError Unit := do
  verifierCheckRegisterBounds insn
  verifierCheckOpcodeSupport insn

def isExit : Bool := insn.cls == .jmp && insn.jmpOp == some .exit

/-- Every instruction is reachable and reaches an exit. -/
def verifierCheckReachability (decoded : List DecodedInsn) (successors : List Successors) :
    Except EbpfError (List Bool) := do
  let reachable := verifierReachableMask successors
  rejectUnless (reachable.all id)
  let exits := (List.range decoded.length).filter fun pc =>
    reachable.getD pc false && isExit (decoded.getD pc (decodeInstruction 0))
  rejectUnless (!exits.isEmpty)
  let canReachExit := verifierCanReachExitMask successors reachable exits
  rejectUnless ((List.range decoded.length).all fun pc =>
    !reachable.getD pc false || canReachExit.getD pc false)
  return reachable

/-- The type of the program plays no part. -/
def verifyProgram (program : List (BitVec 64)) : Except EbpfError Unit := do
  rejectUnless (!program.isEmpty && program.length ≤ bpfMaxInsns)
  let decoded := program.map decodeInstruction
  forM decoded verifierCheckInsn
  let successors ← verifierBuildCfgSuccessors decoded
  let reachable ← verifierCheckReachability decoded successors
  let inStates ← Worklist.solve (verifierAnalysis decoded successors) verifierComplexityLimit
    (fun _ => none) [(0, .entry)]
  rejectUnless ((List.range decoded.length).all fun pc =>
    !reachable.getD pc false || (inStates pc).isSome)

end EchOS.Net.Ebpf
