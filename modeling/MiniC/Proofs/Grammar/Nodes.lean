import Mathlib.Data.List.Forall2
import MiniC.Grammar.Derivation
import MiniC.Tree.Inorder

/-!
# The tokens that the nodes of a tree come from

A derivation drops the parentheses of an expression and keeps all its other tokens: each becomes one
node of the tree, and the nodes in order are these tokens in order. What a node shows of its token
is its place, the text of a literal, and the operator that the token's kind stands for.

* **`Expr.FromToken`** is the relation between a node and its token.
* **`Derives.fromTokens`** pairs the nodes of a phrase with its tokens, and
  **`DerivesProgram.exists_nodes`** finds them, behind the two keywords, among the tokens of a
  program.
-/

namespace MiniC

/-- A token that groups, and leaves no node. -/
def Token.isParen (token : Token) : Bool :=
  token.kind == .openParen || token.kind == .closeParen

theorem Token.isParen_of_unary {token : Token} {op : UnaryOp} (h : token.kind = op.kind) :
    token.isParen = false := by
  rw [isParen, h]
  cases op <;> decide

theorem Token.isParen_of_binary {token : Token} {op : BinaryOp} (h : token.kind = op.kind) :
    token.isParen = false := by
  rw [isParen, h]
  cases op <;> decide

inductive Expr.FromToken : Expr.Mark × Location → Token → Prop where
  | literal {token : Token} (hkind : token.kind = .intLiteral) :
      FromToken (.literal token.text, token.location) token
  | unary {token : Token} {op : UnaryOp} (hkind : token.kind = op.kind) :
      FromToken (.unary op, token.location) token
  | binary {token : Token} {op : BinaryOp} (hkind : token.kind = op.kind) :
      FromToken (.binary op, token.location) token

namespace Grammar

variable {dialect : Dialect} {phrase : Phrase} {tokens nodes : List Token} {e : Expr} {frames : Nat}

/-- Parentheses aside, the tokens of a phrase are those of its nodes, in order. -/
theorem Derives.fromTokens (h : Derives dialect phrase tokens e frames) :
    List.Forall₂ Expr.FromToken e.inorder (tokens.filter fun token => !token.isParen) := by
  induction h with
  | @literal token hkind =>
    have hkeep : token.isParen = false := by
      rw [Token.isParen, hkind]
      decide
    rw [List.filter_cons_of_pos (by simp [hkeep]), List.filter_nil]
    exact .cons (.literal hkind) .nil
  | unary hsign _ ih =>
    rw [List.filter_cons_of_pos (by simp [Token.isParen_of_unary hsign])]
    exact .cons (.unary hsign) ih
  | @parens opening closing tokens e frames hopen hclose _ ih =>
    have hopening : opening.isParen = true := by simp [Token.isParen, hopen]
    have hclosing : closing.isParen = true := by simp [Token.isParen, hclose]
    rw [List.cons_append, List.filter_cons_of_neg (by simp [hopening]), List.filter_append,
      List.filter_cons_of_neg (by simp [hclosing]), List.filter_nil, List.append_nil]
    exact ih
  | factor _ ih | term _ ih => exact ih
  | productLeft _ _ hsign _ _ ihl ihr | productRight _ _ hsign _ _ ihl ihr
  | sum _ hsign _ _ ihl ihr =>
    -- the sign stands between the tokens of its operands, and its node between their nodes
    rw [List.filter_append, List.filter_cons_of_pos (by simp [Token.isParen_of_binary hsign])]
    exact List.rel_append ihl (.cons (.binary hsign) ihr)

theorem exists_token (h : List.Forall₂ Expr.FromToken e.inorder nodes) :
    ∀ node ∈ e.inorder, ∃ token ∈ nodes, Expr.FromToken node token := by
  generalize e.inorder = marks at h
  induction h with
  | nil => exact fun node hnode => nomatch hnode
  | cons hfrom _ ih =>
    intro node hnode
    rcases List.mem_cons.1 hnode with rfl | hlater
    · exact ⟨_, List.mem_cons_self, hfrom⟩
    · obtain ⟨token, htoken, hfrom⟩ := ih node hlater
      exact ⟨token, List.mem_cons_of_mem _ htoken, hfrom⟩

/-- The nodes stand where their tokens do. -/
theorem map_location_nodes (h : List.Forall₂ Expr.FromToken e.inorder nodes) :
    e.inorder.map Prod.snd = nodes.map Token.location := by
  rw [← List.forall₂_eq_eq_eq, List.forall₂_map_left_iff, List.forall₂_map_right_iff]
  refine h.imp fun node token hfrom => ?_
  cases hfrom <;> rfl

/-- The two keywords of a program and the tokens of the nodes of its expression stand in this order
among its tokens, and the program has their places. -/
theorem DerivesProgram.exists_nodes {program : Program}
    (h : DerivesProgram dialect tokens program frames) :
    ∃ returnType keyword nodes, (returnType :: keyword :: nodes).Sublist tokens ∧
      returnType.kind = .intKeyword ∧ keyword.kind = .returnKeyword ∧
      List.Forall₂ Expr.FromToken program.returned.inorder nodes ∧
      program.function.location = returnType.location ∧
      program.function.body.location = keyword.location := by
  cases h with
  | @program returnType name openParen closeParen openBrace keyword semicolon closeBrace inner e
      frames hreturnType _ _ _ _ hkeyword hreturned _ _ =>
    refine ⟨returnType, keyword, inner.filter fun token => !token.isParen, ?_, hreturnType,
      hkeyword, hreturned.fromTokens, rfl, rfl⟩
    have hinner : (inner.filter fun token => !token.isParen).Sublist
        (inner ++ [semicolon, closeBrace]) :=
      List.filter_sublist.trans (List.sublist_append_left _ _)
    have hheader : (keyword :: inner.filter fun token => !token.isParen).Sublist
        ([name, openParen, closeParen, openBrace] ++
          keyword :: (inner ++ [semicolon, closeBrace])) :=
      (hinner.cons_cons keyword).trans (List.sublist_append_right _ _)
    simpa using hheader.cons_cons returnType

end Grammar

end MiniC
