import MiniC.Proofs.Grammar.Dialects
import MiniC.Proofs.Grammar.Nodes
import MiniC.Tree.Node

/-!
# Every token of an expression is accounted for

The tokens between the header of an accepted program and its semicolon are of two sorts: those that
became a node, and parentheses. The former are the nodes of the tree in order, one token for each
node; the latter close up in pairs. So the number of tokens that were read says how many nodes the
tree has, whatever it looks like.

* **`Balanced`** pairs parentheses up and counts the pairs.
* **`Derives.balanced`** is this for the parentheses of a phrase; for the nodes it is
  `Derives.fromTokens`.
* **`nodes_conserve_tokens`** puts both together for a call of a parser.
-/

namespace MiniC

/-- A row of parentheses that closes up, and the number of its pairs: no parentheses at all, or a
pair around such a row, with another such row behind it. -/
inductive Balanced : Nat → List Token → Prop where
  | nil : Balanced 0 []
  | pair {opening closing : Token} {inner later : List Token} {m n : Nat}
      (hopen : opening.kind = .openParen) (hclose : closing.kind = .closeParen)
      (hinner : Balanced m inner) (hlater : Balanced n later) :
      Balanced (m + 1 + n) (opening :: inner ++ closing :: later)

namespace Balanced

variable {m n : Nat} {front back : List Token}

/-- Two rows that close up are one. -/
theorem append (hfront : Balanced m front) (hback : Balanced n back) :
    Balanced (m + n) (front ++ back) := by
  induction hfront with
  | nil => rwa [Nat.zero_add]
  | @pair opening closing inner later k l hopen hclose hinner _ _ ihlater =>
    rw [List.append_assoc, List.cons_append, Nat.add_assoc (k + 1)]
    exact .pair hopen hclose hinner ihlater

theorem length_eq (h : Balanced n front) : front.length = 2 * n := by
  induction h with
  | nil => rfl
  | pair _ _ _ _ ihinner ihlater =>
    simp only [List.length_append, List.length_cons, ihinner, ihlater]
    omega

end Balanced

/-! ## Counting nodes -/

/-- Each node is at one place in order. -/
theorem Expr.length_preorder (e : Expr) (level : Nat) :
    (e.preorder level).length = e.inorder.length := by
  induction e generalizing level with
  | literal => rfl
  | unary _ _ _ ih => simp only [preorder, inorder, List.length_cons, ih]
  | binary _ _ _ _ ihl ihr =>
    simp only [preorder, inorder, List.length_cons, List.length_append, ihl, ihr]
    omega

theorem Node.count_expr (e : Expr) : (Node.expr e).count = e.inorder.length :=
  e.length_preorder 0

/-- A program has a root, a function and a statement above its expression. -/
theorem Node.count_program (program : Program) :
    (Node.program program).count = 3 + (Node.expr program.returned).count := by
  have hbody := program.returned.length_preorder 3
  rw [count_expr, ← hbody, Nat.add_comm]
  rfl

namespace Grammar

variable {dialect : Dialect} {phrase : Phrase} {tokens : List Token} {e : Expr} {frames : Nat}

/-- The parentheses of a phrase close up. -/
theorem Derives.balanced (h : Derives dialect phrase tokens e frames) :
    ∃ pairs, Balanced pairs (tokens.filter Token.isParen) := by
  induction h with
  | @literal token hkind =>
    have hnone : token.isParen = false := by
      rw [Token.isParen, hkind]
      decide
    rw [List.filter_cons_of_neg (by simp [hnone])]
    exact ⟨0, .nil⟩
  | unary hsign _ ih =>
    rw [List.filter_cons_of_neg (by simp [Token.isParen_of_unary hsign])]
    exact ih
  | @parens opening closing tokens e frames hopen hclose _ ih =>
    obtain ⟨pairs, hinner⟩ := ih
    have hopening : opening.isParen = true := by simp [Token.isParen, hopen]
    have hclosing : closing.isParen = true := by simp [Token.isParen, hclose]
    rw [List.cons_append, List.filter_cons_of_pos hopening, List.filter_append,
      List.filter_cons_of_pos hclosing, List.filter_nil]
    exact ⟨pairs + 1 + 0, .pair hopen hclose hinner .nil⟩
  | factor _ ih | term _ ih => exact ih
  | productLeft _ _ hsign _ _ ihl ihr | productRight _ _ hsign _ _ ihl ihr
  | sum _ hsign _ _ ihl ihr =>
    obtain ⟨left, hleft⟩ := ihl
    obtain ⟨right, hright⟩ := ihr
    rw [List.filter_append, List.filter_cons_of_neg (by simp [Token.isParen_of_binary hsign])]
    exact ⟨left + right, hleft.append hright⟩

/-- Every token of a phrase is a node or one of a pair of parentheses. -/
theorem Derives.length_tokens (h : Derives dialect phrase tokens e frames) {pairs : Nat}
    (hpairs : Balanced pairs (tokens.filter Token.isParen)) :
    tokens.length = e.inorder.length + 2 * pairs := by
  have hsplit := List.length_eq_length_filter_add (l := tokens) Token.isParen
  rw [hsplit, hpairs.length_eq, h.fromTokens.length_eq, Nat.add_comm]

end Grammar

/-- **No token is lost, made up or moved.** Of the tokens that an accepted program has between its
header and its semicolon, those that are no parentheses are the nodes of the tree in order, and the
parentheses close up. The place where the call ends counts them all. -/
theorem nodes_conserve_tokens (settings : Settings) (tokens : List Token) {program : Program}
    (h : (Parser.ofTokens settings tokens).parseProgram.1 = .ok program) :
    let position := (Parser.ofTokens settings tokens).parseProgram.2.position
    let inside := (tokens.drop 6).take (position - 8)
    List.Forall₂ Expr.FromToken program.returned.inorder
      (inside.filter fun token => !token.isParen) ∧
    ∃ pairs, Balanced pairs (inside.filter Token.isParen) ∧
      position = 8 + (Node.expr program.returned).count + 2 * pairs ∧
      (Node.program program).count = position - 5 - 2 * pairs := by
  intro position inside
  obtain ⟨hle, -, frames, hderives, -⟩ := Parser.parseProgram_ok_iff.1 ⟨h, rfl⟩
  have hnine := hderives.nine_le_length
  obtain ⟨hreturned, -⟩ := hderives.expression
  rw [Parser.drop_take_expression tokens hle] at hreturned
  obtain ⟨pairs, hpairs⟩ := hreturned.balanced
  have hlength : inside.length = program.returned.inorder.length + 2 * pairs :=
    hreturned.length_tokens hpairs
  have hinside : inside.length = position - 8 := by
    rw [List.length_take, List.length_drop]
    omega
  rw [List.length_take, Nat.min_eq_left hle] at hnine
  refine ⟨hreturned.fromTokens, pairs, hpairs, ?_, ?_⟩
  · rw [Node.count_expr]
    omega
  · rw [Node.count_program, Node.count_expr]
    omega

/-- A sum in parentheses under a sign, in a product, and a token behind the function: eight tokens
between `return` and `;` make six nodes and one pair. -/
theorem nodes_conserve_tokens_negated_sum :
    let tokens : List Token := [⟨.intKeyword, "int", ⟨1, 1⟩⟩, ⟨.identifier, "f", ⟨1, 5⟩⟩,
      ⟨.openParen, "(", ⟨1, 6⟩⟩, ⟨.closeParen, ")", ⟨1, 7⟩⟩, ⟨.openBrace, "\x7b", ⟨1, 9⟩⟩,
      ⟨.returnKeyword, "return", ⟨1, 11⟩⟩, ⟨.minus, "-", ⟨1, 18⟩⟩, ⟨.openParen, "(", ⟨1, 19⟩⟩,
      ⟨.intLiteral, "1", ⟨1, 20⟩⟩, ⟨.plus, "+", ⟨1, 21⟩⟩, ⟨.intLiteral, "2", ⟨1, 22⟩⟩,
      ⟨.closeParen, ")", ⟨1, 23⟩⟩, ⟨.star, "*", ⟨1, 24⟩⟩, ⟨.intLiteral, "3", ⟨1, 25⟩⟩,
      ⟨.semicolon, ";", ⟨1, 26⟩⟩, ⟨.closeBrace, "\x7d", ⟨1, 28⟩⟩, ⟨.intKeyword, "int", ⟨1, 30⟩⟩]
    let sum : Expr := .binary .add (.literal "1" ⟨1, 20⟩) (.literal "2" ⟨1, 22⟩) ⟨1, 21⟩
    let product : Expr :=
      .binary .multiply (.unary .negate sum ⟨1, 18⟩) (.literal "3" ⟨1, 25⟩) ⟨1, 24⟩
    let program : Program := ⟨⟨"f", ⟨product, ⟨1, 11⟩⟩, ⟨1, 1⟩⟩⟩
    (Parser.ofTokens {} tokens).parseProgram.1 = .ok program ∧
      (Parser.ofTokens {} tokens).parseProgram.2.position = 16 ∧
      List.Forall₂ Expr.FromToken product.inorder
        (((tokens.drop 6).take 8).filter fun token => !token.isParen) ∧
      ∃ pairs, Balanced pairs (((tokens.drop 6).take 8).filter Token.isParen) ∧
        16 = 8 + (Node.expr product).count + 2 * pairs ∧
        (Node.program program).count = 11 - 2 * pairs := by
  intro tokens sum product program
  have hparse : (Parser.ofTokens {} tokens).parseProgram.1 = .ok program := by rfl
  have hposition : (Parser.ofTokens {} tokens).parseProgram.2.position = 16 := by rfl
  have hall := nodes_conserve_tokens {} tokens hparse
  rw [hposition] at hall
  exact ⟨hparse, hposition, hall⟩

end MiniC
