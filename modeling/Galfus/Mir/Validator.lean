import Galfus.Dataflow.Worklist
import Galfus.Mir.Basic

/-! # The validator of the middle representation

`validate_function` collects the blocks, checks the targets, single assignment and the
number of block arguments, computes the locals that are initialised on entry to each block
and checks every block against them.
-/

namespace Galfus.Mir

open Dataflow

structure ValidationError where
  message : String
  deriving DecidableEq, Repr

namespace Validator

/-- A `BlockId` and a `LocalId` as `{:?}` prints them. -/
def showBlock (id : BlockId) : String := s!"BlockId({id})"

def showLocal (id : LocalId) : String := s!"LocalId({id})"

variable (func : MirFunction) (block : BasicBlock) (blocks : Blocks) (initialized : Finset LocalId)

def inFunction (text : String) : ValidationError :=
  ⟨"Function '" ++ func.name ++ "': " ++ text⟩

def checkDeclared (use : String) (id : LocalId) : List ValidationError :=
  if func.locals.any (·.id == id) then []
  else [inFunction func (use ++ " undeclared local ID " ++ showLocal id)]

def validateOperand : Operand → List ValidationError
  | .loc id =>
    checkDeclared func "Use of" id ++
      if id ∈ initialized then []
      else [inFunction func ("Use of uninitialized local ID " ++ showLocal id)]
  | _ => []

def validateOperands (ops : List Operand) : List ValidationError :=
  ops.flatMap (validateOperand func initialized)

def validateInstruction : Instruction → List ValidationError
  | .assign dest rvalue =>
    checkDeclared func "Assignment to" dest ++ validateOperands func initialized rvalue.operands
  | .drop id => checkDeclared func "Drop of" id
  | .storeGlobal _ val => validateOperands func initialized [val]
  | .storeIndex arr idx val => validateOperands func initialized [arr, idx, val]
  | .storeField obj _ val => validateOperands func initialized [obj, val]
  | .call _ args dest _ =>
    validateOperands func initialized args ++ checkDeclared func "Call assigned to" dest
  | .constraintCall _ obj args dest _ =>
    validateOperands func initialized (obj :: args) ++
      checkDeclared func "Constraint call assigned to" dest
  | .indirectCall op args dest =>
    validateOperands func initialized (op :: args) ++
      checkDeclared func "Indirect call assigned to" dest
  | .await future dest _ =>
    validateOperands func initialized [future] ++ checkDeclared func "Await assigned to" dest
  | .awaitAll futures dest | .awaitRace futures dest =>
    validateOperands func initialized futures ++ checkDeclared func "Await tuple assigned to" dest

def insertDestination (inst : Instruction) : Finset LocalId :=
  match inst.destination? with
  | some dest => insert dest initialized
  | none => initialized

/-- What `validate_basic_block` takes as initialised after an instruction. -/
def afterInstruction : Instruction → Finset LocalId
  | .drop id => initialized.erase id
  | inst => insertDestination initialized inst

def validateInstructions (func : MirFunction) :
    Finset LocalId → List Instruction → List ValidationError
  | _, [] => []
  | initialized, inst :: rest =>
    validateInstruction func initialized inst ++
      validateInstructions func (afterInstruction initialized inst) rest

/-- The operands that `validate_basic_block` checks in a terminator. -/
def checkedOperands : Terminator → List Operand
  | .ret value => value.toList
  | .jump _ _ => []
  | .branch cond _ _ _ _ => [cond]
  | .panic _ => []
  | .tailCall _ args _ => args

def validateBasicBlock : List ValidationError :=
  validateInstructions func initialized block.instructions ++
    validateOperands func (block.instructions.foldl afterInstruction initialized)
      (checkedOperands block.terminator)

def insertParameters (block : BasicBlock) : Finset LocalId :=
  block.parameters.foldl (fun initialized param => insert param.id initialized) initialized

def eraseOperand (op : Operand) : Finset LocalId :=
  match op with
  | .loc id => initialized.erase id
  | _ => initialized

/-- The locals that an instruction moves from or drops are no longer initialised. -/
def eraseMoved : Instruction → Finset LocalId
  | .assign _ (.use op) | .storeGlobal _ op | .storeIndex _ _ op | .storeField _ _ op
  | .await op _ _ => eraseOperand initialized op
  | .drop id => initialized.erase id
  | .awaitAll futures _ | .awaitRace futures _ => futures.foldl eraseOperand initialized
  | _ => initialized

def applyInstruction (inst : Instruction) : Finset LocalId :=
  insertDestination (eraseMoved initialized inst) inst

def applyInitializationEffects : Finset LocalId :=
  let after := block.instructions.foldl applyInstruction (insertParameters initialized block)
  match block.terminator with
  | .ret (some op) => eraseOperand after op
  | _ => after

abbrev Blocks := Table BlockId BasicBlock

def declaredSuccessors (id : BlockId) : List BlockId :=
  match blocks.lookup id with
  | some block => (block.terminator.successors.map Prod.fst).filter (· ∈ blocks)
  | none => []

def outgoing (id : BlockId) (initialized : Finset LocalId) : Finset LocalId :=
  match blocks.lookup id with
  | some block => applyInitializationEffects block initialized
  | none => initialized

def writtenLocals : Finset LocalId :=
  (blocks.entries.flatMap fun entry =>
    entry.2.parameters.map (·.id) ++ entry.2.instructions.filterMap (·.destination?)).toFinset

/-- The number of rounds within which no initialised local can be lost any more. -/
def rounds (entryInitialized : Finset LocalId) : ℕ :=
  blocks.keys.toFinset.card * ((entryInitialized ∪ writtenLocals blocks).card + 1) + 2

def initializedAtBlockEntries (entryInitialized : Finset LocalId) :
    Option (Table BlockId (Finset LocalId)) :=
  solve (declaredSuccessors blocks) (outgoing blocks) (rounds blocks entryInitialized)
    ⟨(∅ : Table BlockId (Finset LocalId)).insert 0 entryInitialized, [0]⟩

def collectBlock (state : Blocks × List ValidationError) (block : BasicBlock) :
    Blocks × List ValidationError :=
  (state.1.insert block.id block,
    if (state.1.lookup block.id).isSome then
      state.2 ++ [inFunction func ("Duplicate basic block ID " ++ showBlock block.id)]
    else state.2)

/-- A later block replaces an earlier one with the same id. -/
def collectBlocks : Blocks × List ValidationError :=
  func.blocks.foldl (collectBlock func) (∅, [])

def undeclaredTargets : List ValidationError :=
  func.blocks.flatMap fun block => block.terminator.successors.flatMap fun successor =>
    if (blocks.lookup successor.1).isSome then []
    else [inFunction func ("Block " ++ showBlock block.id ++ " jumps to undeclared block " ++
      showBlock successor.1)]

/-- Note an assignment; a second one to the same local is an error. -/
def assignLocal (suffix : String) (state : Finset LocalId × List ValidationError)
    (id : LocalId) : Finset LocalId × List ValidationError :=
  (insert id state.1,
    if id ∈ state.1 then
      state.2 ++ [⟨"SSA Violation: Local " ++ showLocal id ++ " assigned multiple times" ++ suffix⟩]
    else state.2)

def checkArguments (target : BlockId) (args : List Operand) (message : String) :
    List ValidationError :=
  match blocks.lookup target with
  | some block => if args.length = block.parameters.length then [] else [⟨message⟩]
  | none => []

def checkTerminatorArguments : Terminator → List ValidationError
  | .jump target args => checkArguments blocks target args "Jump arguments length mismatch"
  | .branch _ trueBlock trueArgs falseBlock falseArgs =>
    checkArguments blocks trueBlock trueArgs "Branch true arguments mismatch" ++
      checkArguments blocks falseBlock falseArgs "Branch false arguments mismatch"
  | _ => []

def checkAssignments (state : Finset LocalId × List ValidationError) (block : BasicBlock) :
    Finset LocalId × List ValidationError :=
  let params := (block.parameters.map (·.id)).foldl (assignLocal " (block parameter)") state
  let insts := (block.instructions.filterMap (·.destination?)).foldl (assignLocal "") params
  (insts.1, insts.2 ++ checkTerminatorArguments blocks block.terminator)

/-- The locals of the parameters: `LocalId::new(i as u32)`. -/
def parameterIds : List LocalId :=
  (List.range func.parameterTypes.length).map (· % 2 ^ 32)

def parameterLocals : Finset LocalId :=
  (parameterIds func).toFinset

/-- The locals that `bb` is checked with; those of a block that is not reached are all the
declared ones. -/
def initializedIn (entries : Table BlockId (Finset LocalId)) (bb : BasicBlock) : Finset LocalId :=
  insertParameters ((entries.lookup bb.id).getD (func.locals.map (·.id)).toFinset) bb

/-- The errors of `validate_function` after the check for an entry block. -/
def functionErrors (entries : Table BlockId (Finset LocalId)) : List ValidationError :=
  (collectBlocks func).2 ++ undeclaredTargets func (collectBlocks func).1 ++
    (func.blocks.foldl (checkAssignments (collectBlocks func).1) (parameterLocals func, [])).2 ++
    func.blocks.flatMap fun bb => validateBasicBlock func bb (initializedIn func entries bb)

def toResult (errors : List ValidationError) : Except (List ValidationError) Unit :=
  if errors.isEmpty then .ok () else .error errors

def validateFunction : Option (Except (List ValidationError) Unit) :=
  if ((collectBlocks func).1.lookup 0).isNone then
    some (.error ((collectBlocks func).2 ++ [inFunction func "Missing entry block"]))
  else
    (initializedAtBlockEntries (collectBlocks func).1 (parameterLocals func)).map fun entries =>
      toResult (functionErrors func entries)

end Validator

end Galfus.Mir
