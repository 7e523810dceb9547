import SinglePath.Inst.Basic

/-!
Instructions as text: the guard in parentheses unless it always holds, the operation with its named operands,
and a mark for frame setup code.
-/

namespace SinglePath

/-- A name is followed by its named fields in braces. -/
def recordText (name : String) (fields : List (String × String)) : String :=
  name ++ " \x7b " ++ ", ".intercalate (fields.map fun field => field.1 ++ ": " ++ field.2) ++ " \x7d"

def BinOp.text : BinOp → String
  | .add => "Add"
  | .sub => "Sub"
  | .mul => "Mul"
  | .and => "And"
  | .or => "Or"
  | .xor => "Xor"
  | .shl => "Shl"
  | .shr => "Shr"

def CmpOp.text : CmpOp → String
  | .lt => "Lt"
  | .le => "Le"
  | .eq => "Eq"
  | .ne => "Ne"

def Addr.text : Addr → String
  | .frame cell => "Frame(" ++ cell.text ++ ")"
  | .stack offset => "Stack(" ++ toString offset ++ ")"
  | .memory base offset => recordText "Mem" [("base", base.text), ("offset", toString offset.toNat)]

def Op.text : Op → String
  | .imm dst value => recordText "Imm" [("dst", dst.text), ("imm", toString value.toNat)]
  | .copy dst src => recordText "Copy" [("dst", dst.text), ("src", src.text)]
  | .binary op dst lhs rhs =>
    recordText "BinOp" [("op", op.text), ("dst", dst.text), ("lhs", lhs.text), ("rhs", rhs.text)]
  | .binaryImm op dst lhs value =>
    recordText "BinOpImm"
      [("op", op.text), ("dst", dst.text), ("lhs", lhs.text), ("imm", toString value.toNat)]
  | .compare op dst lhs rhs =>
    recordText "Cmp" [("op", op.text), ("dst", dst.text), ("lhs", lhs.text), ("rhs", rhs.text)]
  | .predAnd dst a b => recordText "PAnd" [("dst", dst.text), ("a", a.text), ("b", b.text)]
  | .predOr dst a b => recordText "POr" [("dst", dst.text), ("a", a.text), ("b", b.text)]
  | .predMove dst src => recordText "PMov" [("dst", dst.text), ("src", src.text)]
  | .predClear dst => recordText "PClr" [("dst", dst.text)]
  | .testBit dst src bit => recordText "BTest" [("dst", dst.text), ("src", src.text), ("bit", toString bit)]
  | .copyBit dst src bit cond =>
    recordText "BCopy" [("dst", dst.text), ("src", src.text), ("bit", toString bit), ("cond", cond.text)]
  | .load dst addr => recordText "Load" [("dst", dst.text), ("addr", addr.text)]
  | .store addr src => recordText "Store" [("addr", addr.text), ("src", src.text)]
  | .fromSpecial dst special => recordText "Mfs" [("dst", dst.text), ("sreg", special.text)]
  | .toSpecial special src => recordText "Mts" [("sreg", special.text), ("src", src.text)]
  | .print reg => recordText "Print" [("reg", reg.text)]
  | .call callee => recordText "Call" [("callee", toString callee.toNat)]
  | .reserve words => recordText "Sres" [("words", toString words)]
  | .free words => recordText "Sfree" [("words", toString words)]
  | .branch target => recordText "Br" [("target", target.text)]
  | .ret reg => recordText "Ret" [("reg", reg.text)]

def Inst.text (inst : Inst) : String :=
  (if inst.guard.isAlways then "" else "(" ++ inst.guard.text ++ ") ") ++
    inst.op.text ++ (if inst.frameSetup then " [frame-setup]" else "")

end SinglePath
