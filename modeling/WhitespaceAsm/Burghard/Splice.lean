import WhitespaceAsm.Tree.Basic

/-!
# Words with comments inside

A block comment inside a word does not end it: the parts before and after the comment are one word.

* `shouldSplice`: two words with only block comments between them; **`splice`**: the word they make;
* `spliceArgs`: an instruction whose words have been put together.
-/

namespace WhitespaceAsm.Burghard

/-- **Only block comments separate a word from the next one.** The first may be spliced already. -/
def shouldSplice (lhs : Token) (between : List Token) (rhs : Token) : Bool :=
  between.all (·.kind == .blockComment) && (lhs.kind == .word || lhs.kind == .spliced)
    && rhs.kind == .word

/-- A word with the text of the next one added. -/
def joinWord (lhs rhs : Token) : Token :=
  match lhs, rhs with
  | .plain text (.word errors), .plain more (.word errors') =>
    .plain (text ++ more) (.word (errors ∪ errors'))
  | lhs, _ => lhs

/-- **The word that two words with comments between them make.** It keeps all parts in order. -/
def splice (lhs : Token) (between : List Token) (rhs : Token) : Token :=
  let (parts, word) := match lhs with
    | .spliced _ parts word => (parts, word)
    | lhs => ([lhs], some lhs)
  .spliced (lhs.text ++ texts between ++ rhs.text) (parts ++ between ++ [rhs])
    (word.map (joinWord · rhs))

/-- **Puts the words of an instruction together**: a word that comes before some arguments takes
those that belong to it, and so does each argument. -/
def spliceArgs (lhs : Token) : List Arg → Token × List Arg
  | [] => (lhs, [])
  | a :: args =>
    if shouldSplice lhs a.sep a.token then spliceArgs (splice lhs a.sep a.token) args
    else
      let (token, args) := spliceArgs a.token args
      (lhs, ⟨a.sep, token⟩ :: args)

end WhitespaceAsm.Burghard
