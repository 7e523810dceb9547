import SinglePath.Func.Basic
import SinglePath.Inst.Text

/-!
A function as text: a title line, then the laid out blocks with their edges and instructions.
-/

namespace SinglePath

def Block.headline (block : Block) (id : BlockId) : String :=
  id.text ++ " " ++ block.name ++ ":" ++
    (if block.preds.isEmpty then "" else "  preds " ++ bracketed (block.preds.map BlockId.text)) ++
    (if block.succs.isEmpty then "" else "  succs " ++ bracketed (block.succs.map BlockId.text)) ++ "\n"

def Block.listing (block : Block) (id : BlockId) : String :=
  block.headline id ++ String.join (block.insts.map fun inst => "    " ++ inst.text ++ "\n")

def Func.listing (func : Func) (title : String) : Except Fault String := do
  let blocks ← func.layout.mapM fun id => do return (← func.get id).listing id
  return "\n======== " ++ title ++ ": " ++ func.name ++ " ========\n" ++ String.join blocks

end SinglePath
