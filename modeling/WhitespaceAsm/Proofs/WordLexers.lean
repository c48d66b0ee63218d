import WhitespaceAsm.CensoredUsername
import WhitespaceAsm.Proofs.Comment
import WhitespaceAsm.Wconrad
import WhitespaceAsm.Wsf

/-!
# The tokens of the dialects without a parser

CensoredUsername, wconrad and wsf programs are words, numbers, spaces and comments, each of them a
run of bytes of one class.

* `CensoredUsername.next_readsStart`, `Wconrad.next_readsStart`, `Wsf.next_readsStart`: the rules
  read the start of a text;
* `CensoredUsername.next_append_lf`, `Wconrad.next_append_lf`, `Wsf.next_append_lf`: and nothing
  beyond the end of a line.
-/

namespace WhitespaceAsm

namespace CensoredUsername

theorem next_readsStart : ReadsStart next := by
  intro b rest
  unfold next
  split
  · exact Token.starts_plain b _ ( List.takeWhile_prefix _)
  split
  · exact Token.starts_plain b _ ( List.takeWhile_prefix _)
  split
  · exact Token.starts_byte b rest _
  split
  · exact Token.starts_byte b rest _
  split
  · exact Token.starts_checkedComment (by decide) b rest
  split
  · exact Token.starts_byte b rest _
  split
  · exact Token.starts_plain b _ ( List.takeWhile_prefix _)
  · exact Token.starts_plain b _ ( List.takeWhile_prefix _)

theorem next_isRaw (b : UInt8) (rest : Bytes) : (next b rest).IsRaw := by
  unfold next readInteger
  repeat' split
  all_goals exact Token.isRaw_plain _ (by simp [Payload.kind])

theorem next_lf (rest : Bytes) : next Ascii.lf rest = Token.lineFeed := rfl

theorem next_append_lf (b : UInt8) (rest t : Bytes) :
    next b (rest ++ Ascii.lf :: t) = next b rest := by
  have hcomment := Token.checkedComment_append_lf (n := 1) (s := b :: rest) (by simp) t
  rw [List.cons_append] at hcomment
  rw [next, next, readInteger, readInteger, hcomment,
    takeWhile_append_lf rest t (p := Ascii.isIdentifier) (by decide),
    takeWhile_append_lf rest t (p := isSpace) (by decide),
    takeWhile_append_lf rest t (p := fun c => !startsToken c) (by decide)]

end CensoredUsername

namespace Wconrad

theorem next_readsStart : ReadsStart next := by
  intro b rest
  unfold next
  split
  · exact Token.starts_checkedComment (by decide) b rest
  split
  · exact Token.starts_byte b rest _
  split
  · exact Token.starts_plain b _ ( List.takeWhile_prefix _)
  unfold readWord
  dsimp only
  split
  · exact Token.starts_plain b _ ( List.takeWhile_prefix _)
  · exact Token.starts_plain b _ ( List.takeWhile_prefix _)

theorem next_isRaw (b : UInt8) (rest : Bytes) : (next b rest).IsRaw := by
  unfold next readWord
  repeat' split
  all_goals exact Token.isRaw_plain _ (by simp [Payload.kind])

theorem next_lf (rest : Bytes) : next Ascii.lf rest = Token.lineFeed := rfl

theorem next_append_lf (b : UInt8) (rest t : Bytes) :
    next b (rest ++ Ascii.lf :: t) = next b rest := by
  have hcomment := Token.checkedComment_append_lf (n := 1) (s := b :: rest) (by simp) t
  rw [List.cons_append] at hcomment
  rw [next, next, readWord, readWord, hcomment,
    takeWhile_append_lf rest t (p := isSpace) (by decide),
    takeWhile_append_lf rest t (p := fun c => !endsWord c) (by decide)]

end Wconrad

namespace Wsf

theorem next_readsStart : ReadsStart next := by
  intro b rest
  unfold next
  split
  · exact Token.starts_plain b _ ( List.takeWhile_prefix _)
  split
  · exact Token.starts_plain b _ ( List.takeWhile_prefix _)
  split
  · exact Token.starts_byte b rest _
  split
  · exact Token.starts_checkedComment (by decide) b rest
  split
  · exact Token.starts_byte b rest _
  split
  · exact Token.starts_plain b _ ( List.takeWhile_prefix _)
  · exact Token.starts_plain b _ ( List.takeWhile_prefix _)

theorem next_isRaw (b : UInt8) (rest : Bytes) : (next b rest).IsRaw := by
  unfold next readInteger
  repeat' split
  all_goals exact Token.isRaw_plain _ (by simp [Payload.kind])

theorem next_lf (rest : Bytes) : next Ascii.lf rest = Token.lineFeed := rfl

theorem next_append_lf (b : UInt8) (rest t : Bytes) :
    next b (rest ++ Ascii.lf :: t) = next b rest := by
  have hcomment := Token.checkedComment_append_lf (n := 1) (s := b :: rest) (by simp) t
  rw [List.cons_append] at hcomment
  rw [next, next, readInteger, readInteger, hcomment,
    takeWhile_append_lf rest t (p := isWordByte) (by decide),
    takeWhile_append_lf rest t (p := Ascii.isIdentifier) (by decide),
    takeWhile_append_lf rest t (p := isSpace) (by decide),
    takeWhile_append_lf rest t (p := fun c => !startsToken c) (by decide)]

end Wsf

end WhitespaceAsm
