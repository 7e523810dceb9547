import SinglePath.ScopeTree.Walk

/-! Scope nodes and walk events as text. -/

namespace SinglePath

def ScopeNode.text : ScopeNode → String
  | .block id => "Block(" ++ id.text ++ ")"
  | .subscope id => "Subscope(" ++ id.text ++ ")"

def WalkEvent.text : WalkEvent → String
  | .enter scope => "Enter(" ++ scope.text ++ ")"
  | .block id => "Block(" ++ id.text ++ ")"
  | .exit scope => "Exit(" ++ scope.text ++ ")"

end SinglePath
