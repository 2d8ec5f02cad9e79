import Niladic.Action
import Niladic.Token.Scan
import Niladic.Tree.Reading

namespace Niladic.Source

variable {σ : Type}

/-- Faults in the spelling of a token are not logged. -/
def tokenize (text : String) : Action (Logged σ) (List Placed) := do
  match Token.ofText text with
  | .ok tokens =>
      Logged.emit (.tokenized tokens.length)
      return tokens
  | .error e => Action.fail (.source e)

def parseTokens (tokens : List Placed) : Action (Logged σ) Tree := do
  match Tree.ofTokens tokens with
  | .ok tree =>
      Logged.emit (.parsed ((tree.items?.getD []).length))
      return tree
  | .error e => Logged.reject (.sourceRejected e) (.source e)

def parse (text : String) : Action (Logged σ) Tree := do
  parseTokens (← tokenize text)

end Niladic.Source
