import MiniC.Proofs.Parse.Segment
import MiniC.Tree.Outline

/-!
# What a cap says about a tree

The cap limits how many rules are running at a time while tokens are read. Whoever works on the tree
afterwards walks down its branches, and a branch is another thing than a stack of rules: parentheses
take frames and leave no edge, and a chain that folds to the left grows downwards while it is read
in a loop. So on every branch the cap limits some edges and leaves the others alone.

## The crux

A right operand and the operand of a sign are read inside of the rule that has read what stands in
front of them, so each of these edges takes a frame. A left operand was read before, and its rule is
over when the operator comes. The one frame of a factor that no edge accounts for (`Phrase.spare`)
pays for the edge to it.

## The architecture

* **`Expr.branches`** lists the ways from the root of an expression to its literals, and
  **`mem_preorder_of_mem_branches`** says that the length of a branch is the level of its literal.
* **`Derives.inward_le_frames`** bounds the edges of a branch that lead inward.
* **`exists_tall`** makes trees of any height out of two frames.
* **`cap_bounds_inward_edges`** is the result.
-/

namespace MiniC

namespace Expr

/-! ## Branches -/

/-- A step from an operator down to one of its operands. -/
inductive Edge where
  /-- To the operand of a unary operator. -/
  | operand
  | left
  | right
  deriving DecidableEq, Repr

/-- The ways from the root to the literals, from left to right. -/
def branches : Expr → List (List Edge)
  | literal _ _ => [[]]
  | unary _ operand _ => operand.branches.map (.operand :: ·)
  | binary _ left right _ => left.branches.map (.left :: ·) ++ right.branches.map (.right :: ·)

/-- The edges of a branch that do not lead to a left operand. -/
def inward (branch : List Edge) : Nat := branch.count .operand + branch.count .right

@[simp] theorem inward_nil : inward [] = 0 := rfl

@[simp] theorem inward_operand (branch : List Edge) :
    inward (.operand :: branch) = 1 + inward branch := by
  simp [inward]
  omega

@[simp] theorem inward_left (branch : List Edge) : inward (.left :: branch) = inward branch := by
  simp [inward]

@[simp] theorem inward_right (branch : List Edge) :
    inward (.right :: branch) = 1 + inward branch := by
  simp [inward]
  omega

/-- Below an operator, an edge inward is one to the right. -/
theorem inward_binary_le {l r : Expr} {op : BinaryOp} {location : Location} {m n : Nat}
    (hleft : ∀ branch ∈ l.branches, inward branch ≤ m)
    (hright : ∀ branch ∈ r.branches, 1 + inward branch ≤ n) :
    ∀ branch ∈ (binary op l r location).branches, inward branch ≤ max m n := by
  intro branch hbranch
  rcases List.mem_append.1 hbranch with hmem | hmem
  · obtain ⟨rest, hrest, rfl⟩ := List.mem_map.1 hmem
    rw [inward_left]
    exact Nat.le_trans (hleft rest hrest) (Nat.le_max_left m n)
  · obtain ⟨rest, hrest, rfl⟩ := List.mem_map.1 hmem
    rw [inward_right]
    exact Nat.le_trans (hright rest hrest) (Nat.le_max_right m n)

/-- A branch ends at a literal, as many levels below the root as it has edges. -/
theorem mem_preorder_of_mem_branches {e : Expr} {branch : List Edge} (h : branch ∈ e.branches)
    (level : Nat) : ∃ text location,
      (level + branch.length, Node.expr (.literal text location)) ∈ e.preorder level := by
  induction e generalizing branch level with
  | literal text location =>
    obtain rfl := List.mem_singleton.1 h
    exact ⟨text, location, List.mem_cons_self⟩
  | unary op operand location ih =>
    obtain ⟨rest, hrest, rfl⟩ := List.mem_map.1 h
    obtain ⟨text, place, hmem⟩ := ih hrest (level + 1)
    rw [Nat.add_right_comm] at hmem
    exact ⟨text, place, List.mem_cons_of_mem _ hmem⟩
  | binary op left right location ihl ihr =>
    rcases List.mem_append.1 h with hleft | hright
    · obtain ⟨rest, hrest, rfl⟩ := List.mem_map.1 hleft
      obtain ⟨text, place, hmem⟩ := ihl hrest (level + 1)
      rw [Nat.add_right_comm] at hmem
      exact ⟨text, place, List.mem_cons_of_mem _ (List.mem_append_left _ hmem)⟩
    · obtain ⟨rest, hrest, rfl⟩ := List.mem_map.1 hright
      obtain ⟨text, place, hmem⟩ := ihr hrest (level + 1)
      rw [Nat.add_right_comm] at hmem
      exact ⟨text, place, List.mem_cons_of_mem _ (List.mem_append_right _ hmem)⟩

end Expr

namespace Grammar

variable {dialect : Dialect} {phrase : Phrase} {tokens : List Token} {e : Expr} {frames : Nat}

/-! ## What frames bound -/

/-- The frames of a phrase that are there before any edge. -/
def Phrase.spare : Phrase → Nat
  | .factor => 1
  | .term | .expression => 0

/-- Every edge inward takes a frame. -/
theorem Derives.inward_le_frames (h : Derives dialect phrase tokens e frames) :
    ∀ branch ∈ e.branches, Expr.inward branch + phrase.spare ≤ frames := by
  induction h with
  | literal =>
    intro branch hbranch
    obtain rfl := List.mem_singleton.1 hbranch
    exact Nat.le_refl 1
  | @unary sign op tokens e frames hsign hoperand ih =>
    intro branch hbranch
    obtain ⟨rest, hrest, rfl⟩ := List.mem_map.1 hbranch
    have hinner : Expr.inward rest + 1 ≤ frames := ih rest hrest
    rw [Expr.inward_operand, Nat.add_assoc]
    exact Nat.add_le_add_left hinner 1
  | parens _ _ _ ih =>
    intro branch hbranch
    rw [Nat.add_comm]
    exact Nat.add_le_add_left (ih branch hbranch) 1
  | factor _ ih => exact fun branch hbranch => Nat.le_of_succ_le (ih branch hbranch)
  | term _ ih => exact fun branch hbranch => Nat.le_trans (ih branch hbranch) (Nat.le_add_left _ _)
  | productLeft _ _ _ _ _ ihl ihr =>
    -- the right operand is a factor, which has a frame for the edge to it
    refine Expr.inward_binary_le ihl fun branch hbranch => ?_
    rw [Nat.add_comm]
    exact ihr branch hbranch
  | productRight _ _ _ _ _ ihl ihr =>
    exact Expr.inward_binary_le (fun branch hbranch => Nat.le_of_succ_le (ihl branch hbranch))
      fun branch hbranch => Nat.add_le_add_left (ihr branch hbranch) 1
  | sum _ _ _ _ ihl ihr =>
    exact Expr.inward_binary_le ihl fun branch hbranch => Nat.add_le_add_left (ihr branch hbranch) 1

/-! ## What frames do not bound -/

/-- Two frames suffice for a sum, however long it is, and the sum is as high as it is long. -/
theorem exists_tall (dialect : Dialect) (n : Nat) :
    ∃ tokens e, Derives dialect .expression tokens e 2 ∧
      List.replicate n Expr.Edge.left ∈ e.branches ∧ List.replicate n '(' <+: e.text.toList := by
  have hone : (Token.ofKind .intLiteral).kind = .intLiteral := rfl
  induction n with
  | zero => exact ⟨_, _, .term (.factor (.literal hone)), List.mem_cons_self, List.nil_prefix⟩
  | succ n ih =>
    obtain ⟨tokens, e, hderives, hbranch, htext⟩ := ih
    have hadd : IsSumOp dialect .add := by
      cases dialect with
      | standard => exact .inl rfl
      | legacy => rfl
    have hplus : (Token.ofKind .plus).kind = BinaryOp.kind .add := rfl
    refine ⟨_, _, .sum hadd hplus hderives (.factor (.literal hone)), ?_, ?_⟩
    · rw [List.replicate_succ]
      exact List.mem_append_left _ (List.mem_map_of_mem hbranch)
    · obtain ⟨rest, hrest⟩ := htext
      rw [List.replicate_succ, Expr.toList_text_binary, List.cons_prefix_cons, ← hrest,
        List.append_assoc]
      exact ⟨rfl, List.prefix_append _ _⟩

end Grammar

/-! ## The main theorem -/

/-- A program around an expression, without any text that matters. -/
def Enclosure.plain : Enclosure where
  header := Rule.header.map Token.ofKind
  footer := [.semicolon, .closeBrace].map Token.ofKind
  header_kinds := rfl
  footer_kinds := rfl

/-- **A cap bounds the edges that lead inward, and no others.** On every branch of an accepted
program, the edges to the operand of a sign and those to a right operand are together no more than
the cap. But from the least cap that accepts anything on, there are programs of any height in both
dialects and modes: their outlines have lines at every level, and their written forms start with any
number of parentheses. -/
theorem cap_bounds_inward_edges :
    (∀ (dialect : Dialect) (strict : Bool) (limit : Nat) (tokens : List Token) (program : Program),
      (Parser.ofTokens { dialect, maxDepth := some limit, strict } tokens).parseProgram.1 =
          .ok program →
        ∀ branch ∈ program.returned.branches,
          branch.count .operand + branch.count .right ≤ limit) ∧
    ∀ (dialect : Dialect) (strict : Bool) (limit : Nat), 2 ≤ limit → ∀ n, ∃ tokens program,
      (Parser.ofTokens { dialect, maxDepth := some limit, strict } tokens).parseProgram.1 =
          .ok program ∧
        (∃ level part, n ≤ level ∧ (level, part) ∈ (Node.program program).preorder 0 ∧
          part.outlineLine level ∈ (Node.program program).outlineLines) ∧
        List.replicate n '(' <+: program.returned.text.toList := by
  refine ⟨fun dialect strict limit tokens program h branch hbranch => ?_,
    fun dialect strict limit hlimit n => ?_⟩
  · obtain ⟨-, -, frames, hderives, hcap⟩ := Parser.parseProgram_ok_iff.1 ⟨h, rfl⟩
    obtain ⟨hreturned, -⟩ := hderives.expression
    exact Nat.le_trans (hreturned.inward_le_frames branch hbranch) (hcap limit rfl)
  · -- a tall sum in two frames, put into a program
    obtain ⟨tokens, e, hderives, hbranch, htext⟩ := Grammar.exists_tall dialect n
    obtain ⟨program, hprogram, rfl⟩ := Enclosure.plain.exists_derives hderives
    obtain ⟨other, hparse, -, hreturned⟩ :
        ReadAs { dialect, maxDepth := some limit, strict } (Enclosure.plain.around tokens)
          program.returned :=
      readAs_iff.2 ⟨program, 2, hprogram, rfl, by rintro _ ⟨⟩; exact hlimit⟩
    refine ⟨_, other, hparse, ?_, ?_⟩
    · obtain ⟨text, location, hmem⟩ := Expr.mem_preorder_of_mem_branches hbranch 3
      rw [← hreturned] at hmem
      have hpart : _ ∈ (Node.program other).preorder 0 :=
        List.mem_cons_of_mem _ (List.mem_cons_of_mem _ (List.mem_cons_of_mem _ hmem))
      refine ⟨_, _, ?_, hpart, List.mem_map_of_mem hpart⟩
      rw [List.length_replicate]
      exact Nat.le_add_left n 3
    · rw [hreturned]
      exact htext

end MiniC
