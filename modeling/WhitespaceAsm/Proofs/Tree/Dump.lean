import WhitespaceAsm.Proofs.Token.Describe
import WhitespaceAsm.Tree.Dump

/-!
# The lines of a listing

The listing of a tree can be cut into its lines again, because nothing that is written for a token
breaks a line. A line is told by the word that it begins with behind its indentation: the opcodes on
the lines for instructions are those of the instructions of the tree in source order, whatever the
tokens hold.

* `IsListed`: a line of a listing; **`Lists`**: lines that list some statements; `Statement.lists`,
  `Node.lists`: those that are written for them;
* **`Node.dump_lines`**: escaped texts, and the lines of a listing.
-/

namespace WhitespaceAsm

/-! ## Names on lines -/

/-- The instruction of a statement. -/
def Statement.inst? : Statement → Option Inst
  | .inst i => some i
  | .emptyLine _ => none

/-- **The name on a line** that begins with `Inst` behind its indentation: what stands there up to
the next space. -/
def listedName? (line : Bytes) : Option Bytes :=
  let text := line.dropWhile (· == Ascii.space)
  if (ascii "Inst ").isPrefixOf text then
    some ((text.drop (ascii "Inst ").length).takeWhile (· != Ascii.space))
  else
    none

theorem listedName?_indent (depth : Nat) (line : Bytes) :
    listedName? (indent depth line) = listedName? line := by
  have hspaces : ∀ b ∈ List.replicate (2 * depth) Ascii.space, (b == Ascii.space) = true :=
    fun b hb => beq_iff_eq.2 (List.eq_of_mem_replicate hb)
  have hdrop : (indent depth line).dropWhile (· == Ascii.space)
      = line.dropWhile (· == Ascii.space) := by
    rw [indent, List.dropWhile_append_of_pos hspaces]
  rw [listedName?, hdrop]
  rfl

theorem listedName?_inst (o : Opcode) {flaw : Bytes} (hflaw : ∀ b ∈ flaw.head?, b = Ascii.space) :
    listedName? (ascii "Inst " ++ ascii o.name ++ flaw) = some (ascii o.name) := by
  have hname : ∀ b ∈ ascii o.name, (b != Ascii.space) = true := by
    intro b hb
    refine bne_iff_ne.2 fun heq => ?_
    have hidentifier := o.isIdentifier_of_mem_name b hb
    rw [heq] at hidentifier
    exact absurd hidentifier (by decide)
  have hend : flaw.takeWhile (· != Ascii.space) = [] := by
    cases flaw with
    | nil => rfl
    | cons b rest => rw [hflaw b rfl]; rfl
  rw [List.append_assoc]
  change some ((ascii o.name ++ flaw).takeWhile (· != Ascii.space)) = _
  rw [List.takeWhile_append_of_pos hname, hend, List.append_nil]

theorem Opcode.name_injective : Function.Injective fun o : Opcode => ascii o.name := by
  have hfind : ∀ o ∈ all, all.find? (fun o' => ascii o'.name == ascii o.name) = some o := by
    decide +kernel
  intro o o' h
  have ho := hfind o o.mem_all
  rw [show ascii o.name = ascii o'.name from h, hfind o' o'.mem_all] at ho
  exact (Option.some.inj ho).symm

/-- The words that the lines begin with that are not for instructions. -/
def lineLabels : List String :=
  ["before ", "opcode ", "sep ", "arg ", "after ", "Empty", "space ", "Block (", "OptionBlock",
   "Branch", "End", "Dialect "]

theorem listedName?_label {label : String} (h : label ∈ lineLabels) (rest : Bytes) :
    listedName? (ascii label ++ rest) = none := by
  simp only [lineLabels, List.mem_cons, List.not_mem_nil, or_false] at h
  obtain rfl | rfl | rfl | rfl | rfl | rfl | rfl | rfl | rfl | rfl | rfl | rfl := h <;> rfl

/-! ## Lines that list statements -/

/-- **A line of a listing**: an indentation, one of the words and what is printed behind it. -/
def IsListed (line : Bytes) : Prop := ∃ depth label rest,
  label ∈ "Inst " :: lineLabels ∧ Printable rest ∧ line = indent depth (ascii label ++ rest)

theorem IsListed.printable {line : Bytes} (h : IsListed line) : Printable line := by
  obtain ⟨depth, label, rest, hlabel, hrest, rfl⟩ := h
  have hspaces : Printable (List.replicate (2 * depth) Ascii.space) := fun b hb => by
    rw [List.eq_of_mem_replicate hb]
    decide
  have hlabels : ∀ l ∈ "Inst " :: lineLabels, Printable (ascii l) := by decide
  exact hspaces.append ((hlabels _ hlabel).append hrest)

/-- **The lines list some statements**: the names on them are those of the instructions. -/
structure Lists (lines : List Bytes) (ss : List Statement) : Prop where
  listed : ∀ line ∈ lines, IsListed line
  names : lines.filterMap listedName?
    = (ss.filterMap Statement.inst?).map fun i => ascii i.opcode.name

namespace Lists

variable {lines more : List Bytes} {ss us : List Statement} {depth : Nat}

theorem nil : Lists [] [] := ⟨List.forall_mem_nil _, rfl⟩

theorem append (h : Lists lines ss) (h' : Lists more us) : Lists (lines ++ more) (ss ++ us) where
  listed := List.forall_mem_append.2 ⟨h.listed, h'.listed⟩
  names := by
    rw [List.filterMap_append, h.names, h'.names, List.filterMap_append, List.map_append]

theorem label {label : String} (hlabel : label ∈ lineLabels) {rest : Bytes}
    (hrest : Printable rest) : Lists [indent depth (ascii label ++ rest)] [] where
  listed := List.forall_mem_singleton.2
    ⟨depth, label, rest, List.mem_cons_of_mem _ hlabel, hrest, rfl⟩
  names := by
    rw [List.filterMap_cons_none (by rw [listedName?_indent, listedName?_label hlabel])]
    rfl

theorem word {label : String} (hlabel : label ∈ lineLabels) :
    Lists [indent depth (ascii label)] [] := by
  have hline : Lists [indent depth (ascii label ++ [])] [] := .label hlabel .nil
  rwa [List.append_nil] at hline

theorem tokens {label : String} (hlabel : label ++ " " ∈ lineLabels) (ts : List Token) :
    Lists (dumpTokens depth label ts) [] := by
  have hascii : ascii (label ++ " ") = ascii label ++ ascii " " := by simp [ascii]
  induction ts with
  | nil => exact nil
  | cons t ts ih =>
    have hline : Lists [indent depth (ascii (label ++ " ") ++ t.describe)] [] :=
      .label hlabel t.printable_describe
    rw [hascii] at hline
    exact hline.append ih

theorem inst (i : Inst) {flaw : Bytes} (hprints : Printable flaw)
    (hspace : ∀ b ∈ flaw.head?, b = Ascii.space) :
    Lists [indent depth (ascii "Inst " ++ ascii i.opcode.name ++ flaw)] [.inst i] where
  listed := List.forall_mem_singleton.2 ⟨depth, "Inst ", ascii i.opcode.name ++ flaw,
    List.mem_cons_self, i.opcode.printable_name.append hprints, by rw [List.append_assoc]⟩
  names := by
    rw [List.filterMap_cons_some (by rw [listedName?_indent, listedName?_inst _ hspace])]
    rfl

end Lists

/-! ## Listings -/

theorem Inst.lists (depth : Nat) (i : Inst) : Lists (i.dumpLines depth) [.inst i] := by
  have hargs : Lists (i.args.flatMap (Arg.dumpLines (depth + 1))) [] := by
    induction i.args with
    | nil => exact .nil
    | cons a args ih =>
      rw [List.flatMap_cons]
      exact ((Lists.tokens (by decide) a.sep).append (.tokens (by decide) [a.token])).append ih
  have hflaw : ∀ arity types : Bool,
      let flaw := (if !arity then ascii " [bad arity]"
        else if !types then ascii " [bad types]"
        else [])
      Printable flaw ∧ flaw.head?.all (· == Ascii.space) := by decide
  obtain ⟨hprints, hhead⟩ := hflaw i.validArity i.validTypes
  have hspace := fun b hb => beq_iff_eq.1 ((Option.all_eq_true _ _).1 hhead b hb)
  exact ((((Lists.inst i hprints hspace).append (.tokens (by decide) i.before)).append
    (.tokens (by decide) [i.head])).append hargs).append (.tokens (by decide) i.after)

theorem Statement.lists (depth : Nat) (s : Statement) : Lists (s.dumpLines depth) [s] := by
  cases s with
  | inst i => exact i.lists depth
  | emptyLine ts =>
    have hempty : Lists [indent depth (ascii "Empty")] [] := .word (by decide)
    have hspaces : Lists (dumpTokens (depth + 1) "space" ts) [] := .tokens (by decide) ts
    have hlines := hempty.append hspaces
    exact ⟨hlines.listed, hlines.names⟩

namespace Node

mutual

/-- **The lines of a listing list the statements of the tree**, by recursion over the tree. -/
theorem lists (depth : Nat) : ∀ n : Node, Lists (n.dumpLines depth) n.statements
  | statement s => by
    rw [dumpLines, statements]
    exact s.lists depth
  | block nodes => by
    have hblock :
        Lists [indent depth (ascii "Block (" ++ decimal nodes.length ++ ascii ")")] [] := by
      rw [List.append_assoc]
      exact .label (by decide) (.append (printable_decimal _) (by decide))
    rw [dumpLines, statements]
    exact hblock.append (listsList (depth + 1) nodes)
  | optionBlock ⟨branches, close⟩ => by
    have hoption : ∀ malformed : Bool, Lists [indent depth (ascii "OptionBlock"
        ++ if malformed then ascii " [malformed]" else [])] [] := fun _ =>
      .label (by decide) (.ite (by decide) .nil)
    have hbranches := fun malformed =>
      (hoption malformed).append (listsBranches (depth + 1) branches)
    cases close with
    | none =>
      rw [dumpLines, statements]
      exact (hbranches _).append .nil
    | some i =>
      have hend : Lists [indent (depth + 1) (ascii "End")] [] := .word (by decide)
      rw [dumpLines, statements]
      exact (hbranches _).append (hend.append (i.lists (depth + 2)))
  | dialect d inner => by
    have hdialect : Lists [indent depth (ascii "Dialect " ++ ascii d.name)] [] :=
      .label (by decide) (by cases d <;> decide)
    rw [dumpLines, statements]
    exact hdialect.append (listsOption (depth + 1) inner)

theorem listsList (depth : Nat) :
    ∀ nodes : List Node, Lists (dumpLinesList depth nodes) (statementsList nodes)
  | [] => .nil
  | n :: ns => by
    rw [dumpLinesList, statementsList]
    exact (lists depth n).append (listsList depth ns)

theorem listsBranches (depth : Nat) : ∀ branches : List (Branch Node),
    Lists (dumpLinesBranches depth branches) (statementsBranches branches)
  | [] => .nil
  | ⟨condition, body⟩ :: bs => by
    have hbranch : Lists [indent depth (ascii "Branch")] [] :=
      .word (by decide)
    rw [dumpLinesBranches, statementsBranches]
    exact ((hbranch.append (condition.lists (depth + 1))).append
      (listsList (depth + 1) body)).append (listsBranches depth bs)

theorem listsOption (depth : Nat) :
    ∀ inner : Option Node, Lists (dumpLinesOption depth inner) (statementsOption inner)
  | none => .nil
  | some n => by
    rw [dumpLinesOption, statementsOption]
    exact lists depth n

end

/-! ## Cutting a listing into lines -/

theorem splitOn_lines {lines : List Bytes} (h : ∀ line ∈ lines, IsListed line) :
    (lines.flatMap (· ++ [Ascii.lf])).splitOn Ascii.lf = lines ++ [[]] := by
  induction lines with
  | nil => exact List.splitOn_nil Ascii.lf
  | cons line lines ih =>
    obtain ⟨hline, hlines⟩ := List.forall_mem_cons.1 h
    rw [List.flatMap_cons, List.append_assoc, List.singleton_append,
      List.splitOn_append_cons_self_of_not_mem hline.printable.lf_notMem, ih hlines,
      List.cons_append]

/-- **Escaped texts and listings can be read back**: different texts are escaped differently, and
the lines of a listing name the opcodes of the tree in source order. -/
theorem dump_lines :
    Function.Injective escapeText ∧
      (∀ s, Printable (escapeText s)) ∧
      (∀ s x y, escapeText s = x ++ Ascii.doubleQuote :: y → Odd (backslashes x).length) ∧
      (Function.Injective fun o : Opcode => ascii o.name) ∧
      ∀ n : Node,
        n.dump.splitOn Ascii.lf = n.dumpLines 0 ++ [[]] ∧
        (∀ line ∈ n.dumpLines 0, IsListed line) ∧
        (n.dump.splitOn Ascii.lf).filterMap listedName?
          = (n.statements.filterMap Statement.inst?).map fun i => ascii i.opcode.name := by
  refine ⟨escapeText_injective, printable_escapeText,
    fun _ _ _ => odd_backslashes_of_escapeText, Opcode.name_injective, fun n => ?_⟩
  obtain ⟨hlisted, hnames⟩ := n.lists 0
  have hsplit : n.dump.splitOn Ascii.lf = n.dumpLines 0 ++ [[]] := splitOn_lines hlisted
  refine ⟨hsplit, hlisted, ?_⟩
  rw [hsplit, List.filterMap_append, hnames]
  exact List.append_nil _

end Node

end WhitespaceAsm
