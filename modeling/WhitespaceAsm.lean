import WhitespaceAsm.Burghard.Lex
import WhitespaceAsm.Burghard.Mnemonics
import WhitespaceAsm.Burghard.OptionNester
import WhitespaceAsm.Burghard.Parse
import WhitespaceAsm.Burghard.Splice
import WhitespaceAsm.ByteSet
import WhitespaceAsm.ByteTrie
import WhitespaceAsm.Bytes
import WhitespaceAsm.CaseFold
import WhitespaceAsm.CensoredUsername
import WhitespaceAsm.Check.Problem
import WhitespaceAsm.Check.Run
import WhitespaceAsm.Comment
import WhitespaceAsm.Dialect
import WhitespaceAsm.FlagSet
import WhitespaceAsm.Lexer
import WhitespaceAsm.Lexicon
import WhitespaceAsm.Lexing
import WhitespaceAsm.Main
import WhitespaceAsm.MnemonicTable
import WhitespaceAsm.Numeral.Convert
import WhitespaceAsm.Numeral.Grammar
import WhitespaceAsm.Numeral.Layout
import WhitespaceAsm.Numeral.Parse
import WhitespaceAsm.Numeral.Style
import WhitespaceAsm.Opcode
import WhitespaceAsm.Palaiologos.Lex
import WhitespaceAsm.Palaiologos.Mnemonics
import WhitespaceAsm.Palaiologos.Parse
import WhitespaceAsm.Position
import WhitespaceAsm.Program
import WhitespaceAsm.Proofs.Burghard.CommentInWord
import WhitespaceAsm.Proofs.Burghard.CommentTransparency
import WhitespaceAsm.Proofs.Burghard.CutWord
import WhitespaceAsm.Proofs.Burghard.InterruptedWords
import WhitespaceAsm.Proofs.Burghard.InvalidTail
import WhitespaceAsm.Proofs.Burghard.Lex
import WhitespaceAsm.Proofs.Burghard.NestedComments
import WhitespaceAsm.Proofs.Burghard.Nesting
import WhitespaceAsm.Proofs.Burghard.NestingErrors
import WhitespaceAsm.Proofs.Burghard.OptionNester
import WhitespaceAsm.Proofs.Burghard.Parse
import WhitespaceAsm.Proofs.Burghard.Retyped
import WhitespaceAsm.Proofs.Burghard.Scanning
import WhitespaceAsm.Proofs.Burghard.Splice
import WhitespaceAsm.Proofs.Burghard.SplicedWords
import WhitespaceAsm.Proofs.ByteSet
import WhitespaceAsm.Proofs.ByteTrie
import WhitespaceAsm.Proofs.ByteTrie.Insert
import WhitespaceAsm.Proofs.ByteTrie.Keywords
import WhitespaceAsm.Proofs.ByteTrie.Lookup
import WhitespaceAsm.Proofs.Bytes
import WhitespaceAsm.Proofs.CharLiterals
import WhitespaceAsm.Proofs.Check.Positions
import WhitespaceAsm.Proofs.Check.Problems
import WhitespaceAsm.Proofs.Faithful
import WhitespaceAsm.Proofs.Faithful.Tree
import WhitespaceAsm.Proofs.Finish
import WhitespaceAsm.Proofs.FlagSet
import WhitespaceAsm.Proofs.Lexer
import WhitespaceAsm.Proofs.Lexicon
import WhitespaceAsm.Proofs.Lexing
import WhitespaceAsm.Proofs.Lines
import WhitespaceAsm.Proofs.MnemonicTable
import WhitespaceAsm.Proofs.Numeral.Compatible
import WhitespaceAsm.Proofs.Numeral.Convert
import WhitespaceAsm.Proofs.Numeral.Denotes
import WhitespaceAsm.Proofs.Numeral.Digits
import WhitespaceAsm.Proofs.Numeral.Framing
import WhitespaceAsm.Proofs.Numeral.Haskell
import WhitespaceAsm.Proofs.Numeral.InPlace
import WhitespaceAsm.Proofs.Numeral.Layers
import WhitespaceAsm.Proofs.Numeral.Magnitude
import WhitespaceAsm.Proofs.Numeral.Markers
import WhitespaceAsm.Proofs.Numeral.NoDigits
import WhitespaceAsm.Proofs.Numeral.Signed
import WhitespaceAsm.Proofs.Palaiologos.Commas
import WhitespaceAsm.Proofs.Palaiologos.Lex
import WhitespaceAsm.Proofs.Palaiologos.MaximalMunch
import WhitespaceAsm.Proofs.Palaiologos.Parse
import WhitespaceAsm.Proofs.Palaiologos.Shape
import WhitespaceAsm.Proofs.Position
import WhitespaceAsm.Proofs.Program
import WhitespaceAsm.Proofs.Quoted
import WhitespaceAsm.Proofs.Scanner
import WhitespaceAsm.Proofs.Scanner.Characters
import WhitespaceAsm.Proofs.Spelling
import WhitespaceAsm.Proofs.StringLiterals
import WhitespaceAsm.Proofs.Text
import WhitespaceAsm.Proofs.Trace
import WhitespaceAsm.Proofs.Tree.Dump
import WhitespaceAsm.Proofs.Tree.LineReader
import WhitespaceAsm.Proofs.Tree.Lines
import WhitespaceAsm.Proofs.Tree.Outline
import WhitespaceAsm.Proofs.Tree.Placement
import WhitespaceAsm.Proofs.Tree.Reading
import WhitespaceAsm.Proofs.Tree.Resolve
import WhitespaceAsm.Proofs.Utf8
import WhitespaceAsm.Proofs.Utf8.Boundary
import WhitespaceAsm.Proofs.Utf8.Encode
import WhitespaceAsm.Proofs.Utf8.Trim
import WhitespaceAsm.Proofs.Utf8.Units
import WhitespaceAsm.Proofs.Voliva.InvalidUtf8
import WhitespaceAsm.Proofs.Voliva.Lex
import WhitespaceAsm.Proofs.Voliva.Parse
import WhitespaceAsm.Proofs.Voliva.Unescape
import WhitespaceAsm.Proofs.WholeCharacters
import WhitespaceAsm.Proofs.WordLexers
import WhitespaceAsm.Quoted
import WhitespaceAsm.Scanner
import WhitespaceAsm.Signature
import WhitespaceAsm.Text
import WhitespaceAsm.Token.Basic
import WhitespaceAsm.Token.Describe
import WhitespaceAsm.Token.Payload
import WhitespaceAsm.Tree.Basic
import WhitespaceAsm.Tree.Dump
import WhitespaceAsm.Tree.LineReader
import WhitespaceAsm.Tree.Reader
import WhitespaceAsm.Tree.Resolve
import WhitespaceAsm.Utf8
import WhitespaceAsm.Voliva.Lex
import WhitespaceAsm.Voliva.Mnemonics
import WhitespaceAsm.Voliva.Parse
import WhitespaceAsm.Wconrad
import WhitespaceAsm.Wsf
