import WhitespaceAsm.Check.Run
import WhitespaceAsm.Proofs.Program

/-!
# A tree has problems when something is wrong in it

The flags of a tree and the list of its problems are two recursions over it. They agree at every
part of a tree, so that the exit code of the checker agrees with the errors that it lists.

* `Token.problems_eq_nil_iff`, `Inst.problems_eq_nil_iff`, **`Node.problems_eq_nil_iff`**: the parts
  of a tree, and trees;
* **`Check.exitCode_eq_zero_iff`**: the exit code is zero when no error is listed.
-/

namespace WhitespaceAsm

/-! ## Tokens and instructions -/

theorem Token.problems_eq_nil_iff (offset : Nat) (t : Token) :
    t.problems offset = [] ↔ t.hasError = false := by
  rw [Token.problems]
  cases t.hasError <;> simp

theorem tokensProblems_eq_nil_iff (offset : Nat) (ts : List Token) :
    tokensProblems offset ts = [] ↔ ts.any Token.hasError = false := by
  induction ts generalizing offset with
  | nil => simp [tokensProblems]
  | cons t ts ih =>
    rw [tokensProblems, List.append_eq_nil_iff, t.problems_eq_nil_iff, ih, List.any_cons,
      Bool.or_eq_false_iff]

namespace Inst

theorem headProblems_eq_nil_iff (offset : Nat) (i : Inst) :
    i.headProblems offset = [] ↔ (i.opcode == .invalid) = false ∧ i.head.hasError = false := by
  rw [headProblems]
  by_cases h : i.opcode = .invalid
  · simp [h]
  · simp [h, Token.problems_eq_nil_iff]

theorem fitProblems_eq_nil_iff (offset : Nat) (i : Inst) :
    i.fitProblems offset = [] ↔ (!i.validArity) = false ∧ (!i.validTypes) = false := by
  rw [fitProblems]
  cases i.validArity <;> cases i.validTypes <;> simp

/-- **The problems of an instruction** and its flag. The head is reported once, as a token or as no
instruction, and the arguments as a whole at most once. -/
theorem problems_eq_nil_iff (offset : Nat) (i : Inst) :
    i.problems offset = [] ↔ i.hasError = false := by
  simp only [problems, hasError, tokens, List.append_eq_nil_iff, headProblems_eq_nil_iff,
    fitProblems_eq_nil_iff, tokensProblems_eq_nil_iff, List.any_append, List.any_cons,
    List.any_nil, Bool.or_eq_false_iff]
  tauto

end Inst

theorem Statement.problems_eq_nil_iff (offset : Nat) (s : Statement) :
    s.problems offset = [] ↔ s.hasError = false := by
  cases s with
  | inst i => exact i.problems_eq_nil_iff offset
  | emptyLine ts => exact tokensProblems_eq_nil_iff offset ts

/-! ## Trees -/

namespace Node

mutual

/-- **The problems of a tree** and its flag, by recursion over the tree. -/
theorem problems_eq_nil_iff (offset : Nat) :
    ∀ n : Node, n.problems offset = [] ↔ n.hasError = false
  | statement s => by
    rw [problems, hasError]
    exact s.problems_eq_nil_iff offset
  | block nodes => by
    rw [problems, hasError]
    exact problemsList_eq_nil_iff offset nodes
  | optionBlock ⟨branches, close⟩ => by
    have hbranches := problemsBranches_eq_nil_iff offset branches
    have hmalformed : ∀ p : Problem, (if OptionBlock.malformed ⟨branches, close⟩ then [p] else [])
        = [] ↔ OptionBlock.malformed ⟨branches, close⟩ = false := by
      intro p
      cases OptionBlock.malformed ⟨branches, close⟩ <;> simp
    cases close with
    | none =>
      rw [problems, hasError, List.append_eq_nil_iff, List.append_eq_nil_iff, hbranches,
        hmalformed, Bool.or_eq_false_iff, Bool.or_eq_false_iff]
      simp only [Option.any_none]
      tauto
    | some i =>
      rw [problems, hasError, List.append_eq_nil_iff, List.append_eq_nil_iff, hbranches,
        hmalformed, Bool.or_eq_false_iff, Bool.or_eq_false_iff]
      simp only [Inst.problems_eq_nil_iff, Option.any_some]
      tauto
  | dialect _ inner => by
    rw [problems, hasError]
    exact problemsOption_eq_nil_iff offset inner

theorem problemsList_eq_nil_iff (offset : Nat) :
    ∀ nodes : List Node, problemsList offset nodes = [] ↔ hasErrorList nodes = false
  | [] => by rw [problemsList, hasErrorList]; simp
  | n :: ns => by
    rw [problemsList, hasErrorList, List.append_eq_nil_iff, Bool.or_eq_false_iff,
      problems_eq_nil_iff offset n, problemsList_eq_nil_iff (offset + n.length) ns]

theorem problemsBranches_eq_nil_iff (offset : Nat) : ∀ branches : List (Branch Node),
    problemsBranches offset branches = [] ↔ hasErrorBranches branches = false
  | [] => by rw [problemsBranches, hasErrorBranches]; simp
  | ⟨condition, body⟩ :: bs => by
    rw [problemsBranches, hasErrorBranches, List.append_eq_nil_iff, List.append_eq_nil_iff,
      Bool.or_eq_false_iff, Bool.or_eq_false_iff, condition.problems_eq_nil_iff,
      problemsList_eq_nil_iff _ body, problemsBranches_eq_nil_iff _ bs]

theorem problemsOption_eq_nil_iff (offset : Nat) :
    ∀ inner : Option Node, problemsOption offset inner = [] ↔ hasErrorOption inner = false
  | none => by rw [problemsOption, hasErrorOption]; simp
  | some n => by
    rw [problemsOption, hasErrorOption]
    exact problems_eq_nil_iff offset n

end

end Node

/-! ## Reports -/

namespace Check

/-- What is printed about every program: the parts that are asked for, and that the tree gives the
text back. -/
def summary (o : Options) (d : Dialect) (src : Bytes) (tree : Node) : Bytes :=
  line (ascii "Dialect: " ++ ascii d.name)
    ++ (if o.showTokens then listing "Tokens:" ((d.lex src).map Token.describe) else [])
    ++ (if o.showTree then line [] ++ line (ascii "Tree:") ++ tree.dump else [])
    ++ line [] ++ line (ascii "Round trip: OK")

/-- **The errors that are printed** behind it, if there are any. -/
def errorListing (src : Bytes) (problems : List Problem) : Bytes :=
  if problems = [] then [] else listing "Errors:" (problems.map (Problem.render src))

theorem errorListing_eq_nil_iff (src : Bytes) (problems : List Problem) :
    errorListing src problems = [] ↔ problems = [] := by
  rw [errorListing]
  split
  · next h => simp [h]
  · next h => simp [h, listing, line]

theorem report_eq {d : Dialect} {src : Bytes} {tree : Node} {trace : List Bytes} (o : Options)
    (hparse : d.parse src = .ok tree) (htrace : d.trace src = .ok trace)
    (hsource : tree.source = src) : report o d src = .ok {
      exitCode := if tree.hasError then 1 else 0
      out := summary o d src tree ++ errorListing src (tree.problems 0)
      err := if o.trace then trace.flatMap line else [] } := by
  have hroundTrip : (tree.source == src) = true := beq_iff_eq.2 hsource
  have hexit : (if (true && !tree.hasError) = true then 0 else 1)
      = if tree.hasError then 1 else 0 := by
    cases tree.hasError <;> rfl
  have herrors : (if (tree.problems 0).map (Problem.render src) = [] then []
      else listing "Errors:" ((tree.problems 0).map (Problem.render src)))
      = errorListing src (tree.problems 0) := by
    simp only [List.map_eq_nil_iff, errorListing]
  simp only [report, hparse, htrace, bind, Except.bind, hroundTrip, hexit, herrors, if_true]
  rfl

theorem exists_trace (d : Dialect) (src : Bytes) : ∃ trace, d.trace src = .ok trace := by
  obtain ⟨ss, hss, -⟩ := d.statements_reading src
  exact ⟨_, by rw [Dialect.trace, hss]; rfl⟩

/-- **The exit code agrees with what is printed.** A tree has problems when something is wrong in
it, wherever it starts. For every program the checker exits with zero when it lists no error. -/
theorem exitCode_eq_zero_iff :
    (∀ (n : Node) (offset : Nat), n.hasError ↔ n.problems offset ≠ []) ∧
    ∀ (o : Options) (d : Dialect) (src : Bytes), ∃ tree r,
      d.parse src = .ok tree ∧ report o d src = .ok r ∧
      r.out = summary o d src tree ++ errorListing src (tree.problems 0) ∧
      (r.exitCode = 0 ↔ errorListing src (tree.problems 0) = []) ∧
      ∀ (files : Bytes → Option Bytes) program args, Options.ofArgs {} args = .ok o →
        o.chosenDialect = .ok d → files o.path = some src →
        run (m := Id) files program args = r := by
  have hnode : ∀ (n : Node) (offset : Nat), n.hasError ↔ n.problems offset ≠ [] := by
    intro n offset
    rw [ne_eq, n.problems_eq_nil_iff, Bool.not_eq_false]
  refine ⟨hnode, fun o d src => ?_⟩
  obtain ⟨tree, hparse, hsource⟩ := d.parse_source src
  obtain ⟨trace, htrace⟩ := exists_trace d src
  have hreport := report_eq o hparse htrace hsource
  refine ⟨tree, _, hparse, hreport, rfl, ?_, ?_⟩
  · rw [errorListing_eq_nil_iff, tree.problems_eq_nil_iff]
    cases tree.hasError <;> simp
  · intro files program args hargs hdialect hfile
    simp only [run, hargs, hdialect, hfile, hreport, bind, pure]

end Check

end WhitespaceAsm
