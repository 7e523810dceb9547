import SinglePath.Program.Builder

/-!
A collection of named programs. Registers 1 to 8 hold data, register 9 is the one that callers keep return
information in, and registers 10 to 15 count loop iterations.
-/

namespace SinglePath

namespace Samples

def reg (index : Nat) : GReg := ⟨index⟩

def imm (dst : Nat) (value : UInt32) : Stmt := .simple (.plain (.imm (reg dst) value))
def binary (op : BinOp) (dst lhs rhs : Nat) : Stmt := .simple (.plain (.binary op (reg dst) (reg lhs) (reg rhs)))
def binaryImm (op : BinOp) (dst lhs : Nat) (value : UInt32) : Stmt :=
  .simple (.plain (.binaryImm op (reg dst) (reg lhs) value))
def addImm (dst lhs : Nat) (value : UInt32) : Stmt := binaryImm .add dst lhs value
def print (src : Nat) : Stmt := .simple (.plain (.print (reg src)))
def load (dst : Nat) (offset : UInt32) : Stmt := .simple (.plain (.load (reg dst) (.memory GReg.zero offset)))
def store (offset : UInt32) (src : Nat) : Stmt := .simple (.plain (.store (.memory GReg.zero offset) (reg src)))
def call (callee : UInt32) : Stmt := .simple (.plain (.call callee))
def guarded (guard : Cond) (op : Op) : Stmt := .simple ((Inst.plain op).withGuard guard)

def test (op : CmpOp) (lhs rhs : Nat) : Test := ⟨op, reg lhs, reg rhs⟩

def build (name : String) (stmts : List Stmt) (result : Nat) : Except Fault Program :=
  (Builder.start name).finish stmts (reg result)

def straightLine : List Stmt :=
  [imm 1 5, imm 2 7, binary .mul 3 1 2, print 3, store 0 3, load 4 0, addImm 4 4 1, print 4]

/-- A conditional that takes its first branch. -/
def diamond : List Stmt :=
  [imm 1 3, imm 2 10,
    .ifThenElse (test .lt 1 2) [imm 3 1, print 3] [imm 3 2, print 3],
    binary .add 4 3 1, print 4]

/-- Several levels of conditionals, with stores under predicates. -/
def nestedIfs : List Stmt :=
  [imm 1 4, imm 2 9, imm 3 0,
    .ifThenElse (test .lt 1 2)
      [addImm 3 3 1,
        .ifThenElse (test .eq 2 1)
          [addImm 3 3 10]
          [addImm 3 3 20, .ifThenElse (test .le 1 1) [binary .add 3 3 3] []]]
      [imm 3 100],
    .ifThenElse (test .ne 3 0) [store 1 3] [],
    .ifThenElse (test .lt 2 1)
      [imm 6 1, print 6]
      [.ifThenElse (test .eq 1 1) [imm 6 2] [imm 6 3], print 6],
    load 5 1, print 5]

/-- A loop that sums the numbers below ten and prints the even ones. -/
def countedLoop (bound : Option UInt32) : List Stmt :=
  [imm 10 0, imm 2 10, imm 3 0,
    .whileDo (test .lt 10 2) bound
      [binary .add 3 3 10, binaryImm .and 4 10 1,
        .ifThenElse (test .eq 4 0) [print 10] [],
        addImm 10 10 1],
    print 3]

/-- A loop in a loop, with a conditional after the inner one. -/
def nestedLoops : List Stmt :=
  [imm 10 0, imm 5 4, imm 6 3, imm 3 0,
    .whileDo (test .lt 10 5) (some 5)
      [imm 11 0,
        .whileDo (test .lt 11 6) (some 4) [binary .mul 7 10 11, binary .add 3 3 7, addImm 11 11 1],
        .ifThenElse (test .lt 6 10) [print 10] [print 3],
        addImm 10 10 1],
    print 3]

def selfLoop : List Stmt :=
  [imm 1 0, imm 2 5,
    .repeatUntil [.plain (.binaryImm .add (reg 1) (reg 1) 1), .plain (.print (reg 1))] (test .le 2 1) (some 5),
    addImm 1 1 100, print 1]

/-- A loop, then a conditional with a loop in each branch. -/
def loopSequence : List Stmt :=
  [imm 10 0, imm 2 3, imm 3 1,
    .whileDo (test .lt 10 2) (some 4) [binary .add 3 3 3, addImm 10 10 1],
    print 3,
    .ifThenElse (test .lt 3 2)
      [imm 11 0, .whileDo (test .lt 11 2) (some 4) [print 11, addImm 11 11 1]]
      [imm 12 5, .whileDo (test .lt 0 12) (some 6) [binary .sub 3 3 12, binaryImm .sub 12 12 1]],
    print 3]

/-- Calls in both branches of a conditional and in a loop, with a value that must survive them. -/
def calls : List Stmt :=
  [imm 9 77, imm 1 2, imm 2 3,
    .ifThenElse (test .lt 1 2) [call 1] [call 2],
    print 9, imm 10 0,
    .whileDo (test .lt 10 2) (some 4) [.ifThenElse (test .eq 10 1) [call 3] [], addImm 10 10 1],
    print 9]

/-- A local variable in a frame cell of the program. -/
def frameLocal (cell : CellId) : List Stmt :=
  let loadLocal (dst : Nat) : Stmt := .simple (.plain (.load (reg dst) (.frame cell)))
  let storeLocal (src : Nat) : Stmt := .simple (.plain (.store (.frame cell) (reg src)))
  [imm 1 6, imm 2 8, storeLocal 1,
    .ifThenElse (test .lt 1 2) [loadLocal 3, addImm 3 3 1, storeLocal 3] [storeLocal 0],
    loadLocal 4, print 4]

def guardedOps : List Stmt :=
  let own : PReg := ⟨2⟩
  [imm 1 1, imm 2 2, .simple (.plain (.compare .lt own (reg 1) (reg 2))),
    .ifThenElse (test .lt 2 1)
      [guarded (.holds own) (.imm (reg 3) 5)]
      [guarded (.holds own) (.imm (reg 3) 6), guarded (.fails own) (.imm (reg 3) 7),
        .simple (.plain (.predAnd own (.holds own) (.holds condReg))),
        guarded (.fails own) (.binaryImm .add (reg 3) (reg 3) 10)],
    print 3]

/-- Conditionals inside each other; on even levels the inner one stands in the first branch. -/
def tower : Nat → List Stmt
  | 0 => [addImm 3 3 1000]
  | level + 1 =>
    let taken := addImm 3 3 (UInt32.ofNat (2 ^ level))
    if level % 2 = 0 then
      [.ifThenElse (test .lt 1 2) (taken :: tower level ++ [print 3]) [print 1]]
    else
      [.ifThenElse (test .lt 2 1) [print 2] (taken :: tower level)]

/-- More live predicates than registers when few are available. -/
def manyPreds : List Stmt :=
  [imm 1 1, imm 2 2, imm 3 0] ++ tower 4 ++ [.ifThenElse (test .ne 3 0) [print 3] []]

def all : List (String × Except Fault Program) :=
  [("straight_line", build "straight_line" straightLine 4),
    ("diamond", build "diamond" diamond 4),
    ("diamond_region", (Builder.start "diamond_region").asRegion.finish diamond (reg 4)),
    ("nested_ifs", build "nested_ifs" nestedIfs 5),
    ("counted_loop", build "counted_loop" (countedLoop (some 11)) 3),
    ("loose_bound", build "loose_bound" (countedLoop (some 25)) 3),
    ("unbounded_loop", build "unbounded_loop" (countedLoop none) 3),
    ("zero_bound", build "zero_bound" (countedLoop (some 0)) 3),
    ("nested_loops", build "nested_loops" nestedLoops 3),
    ("self_loop", build "self_loop" selfLoop 1),
    ("loop_sequence", build "loop_sequence" loopSequence 3),
    ("calls", build "calls" calls 9),
    ("frame_local", do
      let (cell, builder) ← (Builder.start "frame_local").newCell
      builder.finish (frameLocal cell) (reg 4)),
    ("guarded_ops", build "guarded_ops" guardedOps 3),
    ("many_preds", build "many_preds" manyPreds 3)]

def names : List String := all.map (·.1)

def find? (name : String) : Option (Except Fault Program) :=
  (all.find? (·.1 == name)).map (·.2)

end Samples

end SinglePath
