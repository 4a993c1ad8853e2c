import MiniC.Proofs.Tree.Outline
import Mathlib.Algebra.GroupWithZero.Nat
import Mathlib.Data.List.Forall2

/-!
# Paths through a tree

A node can be reached by a path of child indices, a tree can be counted level by level, and it can
be written down as an outline. All three see the same tree. The paths that meet a child at every
step, sorted like words in a dictionary, stand for the lines of the outline from the top; a line is
indented by its path, there is a line for every node, and no path is longer than the tree is deep.

## The crux

Below a node the paths fall apart by their first index, and sorting them keeps together what starts
with the same one. That is how an outline is written: what is below a child comes before the next
child. So the paths of a node are put together from those of its children (`Node.paths_eq`) in the
same way as its outline (`Node.preorder_eq`), and one induction over children carries everything.

## The architecture

* **`Node.induction`** goes from the children of a node to the node.
* **`Node.paths`** lists the paths of a node. **`mem_paths_iff`** and **`sorted_paths`** say that
  these are the valid ones in order, and **`map_preorder`** that they lead through the preorder.
* **`count_eq`** and **`deepest_eq`** are the recursions of the two measures.
* **`isSome_at?_iff`** bounds each index of a valid path by the arity that it meets.
* **`outline_follows_paths`** is the result.
-/

namespace MiniC

/-! ## The paths of a node -/

def Expr.paths : Expr → List (List Nat)
  | literal .. => [[]]
  | unary _ operand _ => [] :: operand.paths.map (0 :: ·)
  | binary _ left right _ => [] :: (left.paths.map (0 :: ·) ++ right.paths.map (1 :: ·))

namespace Node

/-- The paths that lead from a node to the nodes below it and to itself, sorted: a path comes before
those that go on behind it, and what is below a child before what is below the next one. -/
def paths : Node → List (List Nat)
  | expr e => e.paths
  | statement s => [] :: s.returned.paths.map (0 :: ·)
  | function f => [] :: [0] :: f.body.returned.paths.map (0 :: 0 :: ·)
  | program p => [] :: [0] :: [0, 0] :: p.returned.paths.map (0 :: 0 :: 0 :: ·)

/-- **The paths of a node are put together from those of its children**: each child adds its index
in front of its own. -/
theorem paths_eq (node : Node) :
    node.paths = [] :: node.children.zipIdx.flatMap fun (child, index) =>
      child.paths.map (index :: ·) := by
  match node with
  | program _ => simp [paths, children, Program.returned]
  | function _ => simp [paths, children]
  | statement _ => simp [paths, children]
  | expr (.literal ..) => rfl
  | expr (.unary ..) => simp [paths, children, Expr.paths]
  | expr (.binary ..) => simp [paths, children, Expr.paths]

/-- What goes from the children of a node to the node holds of all nodes. -/
theorem induction {motive : Node → Prop}
    (step : ∀ node : Node, (∀ child ∈ node.children, motive child) → motive node) (node : Node) :
    motive node := by
  have hexpr (e : Expr) : motive (expr e) := by
    induction e with
    | literal => exact step _ (by simp [children])
    | unary op operand location ih => exact step _ (by simpa [children] using ih)
    | binary op left right location ihl ihr => exact step _ (by simpa [children] using ⟨ihl, ihr⟩)
  have hstatement (s : Statement) : motive (statement s) :=
    step _ (by simpa [children] using hexpr s.returned)
  have hfunction (f : FunctionDefinition) : motive (function f) :=
    step _ (by simpa [children] using hstatement f.body)
  cases node with
  | program p => exact step _ (by simpa [children] using hfunction p.function)
  | function f => exact hfunction f
  | statement s => exact hstatement s
  | expr e => exact hexpr e

/-! ## Valid paths -/

theorem at?_cons {node child : Node} {index : Nat} (h : node.children[index]? = some child)
    (path : List Nat) : node.at? (index :: path) = child.at? path := by
  rw [at?, child?, h]

/-- A path is valid if its first index meets a child in which the rest of it is valid. -/
theorem isSome_at?_cons_iff {node : Node} {index : Nat} {path : List Nat} :
    (node.at? (index :: path)).isSome ↔
      ∃ child, node.children[index]? = some child ∧ (child.at? path).isSome := by
  rw [at?, child?]
  cases node.children[index]? <;> simp

/-- **The paths of a node are the valid ones.** -/
theorem mem_paths_iff {node : Node} {path : List Nat} :
    path ∈ node.paths ↔ (node.at? path).isSome := by
  induction path generalizing node with
  | nil =>
    rw [paths_eq]
    exact iff_of_true List.mem_cons_self rfl
  | cons index path ih =>
    rw [isSome_at?_cons_iff, paths_eq]
    simp [List.mem_zipIdx_iff_getElem?, ih]

/-- The paths are sorted, so none of them is listed twice. -/
theorem sorted_paths (node : Node) : node.paths.Pairwise (List.Lex (· < ·)) := by
  induction node using Node.induction with
  | step node ih =>
    rw [paths_eq, List.pairwise_cons, List.pairwise_flatMap]
    refine ⟨?_, ?_, ?_⟩
    · -- the empty path comes first
      intro path hpath
      obtain ⟨⟨child, index⟩, -, hpath⟩ := List.mem_flatMap.1 hpath
      obtain ⟨later, -, rfl⟩ := List.mem_map.1 hpath
      exact .nil
    · -- below one child the first index is the same
      intro (child, index) hchild
      exact (ih child (List.fst_mem_of_mem_zipIdx hchild)).map _ fun _ _ => .cons
    · -- and below a later child it is greater
      have hindices : node.children.zipIdx.Pairwise fun first later => first.2 < later.2 := by
        rw [← List.pairwise_map, List.zipIdx_map_snd]
        exact List.pairwise_lt_range' 1
      refine hindices.imp fun {first later} hlt path hpath path' hpath' => ?_
      obtain ⟨behind, -, rfl⟩ := List.mem_map.1 hpath
      obtain ⟨behind', -, rfl⟩ := List.mem_map.1 hpath'
      exact .rel hlt

/-- **The paths lead through the preorder.** Each path shows its length as the level. -/
theorem map_preorder (node : Node) (level : Nat) :
    (node.preorder level).map some = node.paths.map fun path =>
      (node.at? path).map fun part => (level + path.length, part) := by
  induction node using Node.induction generalizing level with
  | step node ih =>
    -- below each child the paths are those of the child, one index longer and one level deeper
    have hchildren : node.children.flatMap (fun child => (child.preorder (level + 1)).map some) =
        node.children.zipIdx.flatMap fun (child, index) =>
          (child.paths.map (index :: ·)).map fun path =>
            (node.at? path).map fun part => (level + path.length, part) := by
      conv_lhs => rw [← List.zipIdx_map_fst 0 node.children, List.flatMap_map]
      refine List.flatMap_congr fun (child, index) hchild => ?_
      dsimp only
      rw [ih child (List.fst_mem_of_mem_zipIdx hchild), List.map_map]
      refine List.map_congr_left fun path _ => ?_
      dsimp only [Function.comp_apply]
      rw [at?_cons (List.mem_zipIdx_iff_getElem?.1 hchild), List.length_cons, Nat.add_right_comm,
        Nat.add_assoc]
    rw [preorder_eq, paths_eq, List.map_cons, List.map_cons, List.map_flatMap, List.map_flatMap,
      hchildren]
    rfl

/-- Path by path and entry by entry, the preorder shows what the paths lead to. -/
theorem forall₂_preorder (node : Node) (level : Nat) :
    List.Forall₂ (fun path entry => node.at? path = some entry.2 ∧ entry.1 = level + path.length)
      node.paths (node.preorder level) := by
  have hpaths := (node.map_preorder level).symm
  rw [← List.forall₂_eq_eq_eq, List.forall₂_map_left_iff, List.forall₂_map_right_iff] at hpaths
  refine hpaths.imp fun path entry hentry => ?_
  obtain ⟨part, hpart, rfl⟩ := Option.map_eq_some_iff.1 hentry
  exact ⟨hpart, rfl⟩

/-! ## Measures -/

/-- There is a path for every node. -/
theorem length_paths (node : Node) : node.paths.length = node.count :=
  (node.forall₂_preorder 0).length_eq

theorem foldl_max_le_iff {a n : Nat} {l : List Nat} :
    l.foldl max a ≤ n ↔ a ≤ n ∧ ∀ b ∈ l, b ≤ n := by
  induction l generalizing a with
  | nil => simp
  | cons b l ih => rw [List.foldl_cons, ih, Nat.max_le, and_assoc, List.forall_mem_cons]

/-- A tree is as deep as its paths are long. -/
theorem deepest_le_iff {node : Node} {n : Nat} :
    node.deepest ≤ n ↔ ∀ path ∈ node.paths, path.length ≤ n := by
  have hlevels : node.paths.map List.length = (node.preorder 0).map Prod.fst := by
    rw [← List.forall₂_eq_eq_eq, List.forall₂_map_left_iff, List.forall₂_map_right_iff]
    exact (node.forall₂_preorder 0).imp fun _ _ hentry => (hentry.2.trans (Nat.zero_add _)).symm
  rw [deepest, ← hlevels, foldl_max_le_iff, List.forall_mem_map]
  exact and_iff_right (Nat.zero_le n)

/-- Some path is as long as the tree is deep. -/
theorem exists_length_eq_deepest (node : Node) :
    ∃ path ∈ node.paths, path.length = node.deepest := by
  have hle := deepest_le_iff.1 (Nat.le_refl node.deepest)
  by_contra hne
  push Not at hne
  -- then a lower level would do for all paths, and the empty path would be too long
  have hlt (path : List Nat) (hpath : path ∈ node.paths) : path.length < node.deepest :=
    Nat.lt_of_le_of_ne (hle path hpath) (hne path hpath)
  have hroot := hlt [] (mem_paths_iff.2 rfl)
  have hlower : node.deepest ≤ node.deepest - 1 :=
    deepest_le_iff.2 fun path hpath => Nat.le_sub_one_of_lt (hlt path hpath)
  exact absurd hlower (Nat.not_le.2 (Nat.sub_one_lt_of_lt hroot))

theorem deepest_lt_iff {node : Node} {n : Nat} :
    node.deepest < n ↔ ∀ path ∈ node.paths, path.length < n := by
  constructor
  · intro hlt path hpath
    exact Nat.lt_of_le_of_lt (deepest_le_iff.1 (Nat.le_refl _) path hpath) hlt
  · intro hpaths
    obtain ⟨path, hpath, hlength⟩ := node.exists_length_eq_deepest
    exact hlength ▸ hpaths path hpath

/-- **Nodes are counted child by child.** -/
theorem count_eq (node : Node) : node.count = 1 + (node.children.map count).sum := by
  have hchild (child : Node) : (child.preorder 1).length = child.count := by
    rw [← (child.forall₂_preorder 1).length_eq, length_paths]
  rw [count, preorder_eq, List.length_cons, List.length_flatMap, Nat.add_comm]
  simp only [Nat.zero_add, hchild]

/-- **A node is one level deeper than the deepest of its children.** -/
theorem deepest_eq (node : Node) :
    node.deepest = (node.children.map fun child => child.deepest + 1).foldl max 0 := by
  have hbounds (n : Nat) : node.deepest ≤ n ↔
      (node.children.map fun child => child.deepest + 1).foldl max 0 ≤ n := by
    rw [deepest_le_iff, foldl_max_le_iff, paths_eq, List.forall_mem_cons, List.forall_mem_map]
    refine and_congr_right fun _ => ?_
    simp only [Nat.succ_le_iff, deepest_lt_iff]
    constructor
    · intro hpaths child hchild path hpath
      obtain ⟨index, hindex⟩ := List.getElem?_of_mem hchild
      exact hpaths (index :: path) (List.mem_flatMap.2
        ⟨(child, index), List.mem_zipIdx_iff_getElem?.2 hindex, List.mem_map_of_mem hpath⟩)
    · intro hchildren path hpath
      obtain ⟨⟨child, index⟩, hchild, hpath⟩ := List.mem_flatMap.1 hpath
      obtain ⟨behind, hbehind, rfl⟩ := List.mem_map.1 hpath
      exact hchildren child (List.fst_mem_of_mem_zipIdx hchild) behind hbehind
  exact Nat.le_antisymm ((hbounds _).2 (Nat.le_refl _)) ((hbounds _).1 (Nat.le_refl _))

/-! ## Arities -/

/-- **A path is valid if each of its indices is below the arity of the kind reached before it.** -/
theorem isSome_at?_iff {node : Node} {path : List Nat} :
    (node.at? path).isSome ↔ ∀ front index behind, path = front ++ index :: behind →
      ∃ reached, node.at? front = some reached ∧ index < reached.kind.arity := by
  induction path generalizing node with
  | nil =>
    refine iff_of_true rfl fun front index behind hpath => ?_
    cases front <;> cases hpath
  | cons index path ih =>
    rw [isSome_at?_cons_iff]
    constructor
    · rintro ⟨child, hchild, hvalid⟩ front index' behind hpath
      cases front with
      | nil =>
        obtain ⟨rfl, -⟩ := List.cons.inj hpath
        obtain ⟨hlt, -⟩ := List.getElem?_eq_some_iff.1 hchild
        exact ⟨node, rfl, node.children_length ▸ hlt⟩
      | cons first front =>
        obtain ⟨rfl, hrest⟩ := List.cons.inj hpath
        rw [at?_cons hchild]
        exact ih.1 hvalid front index' behind hrest
    · intro hindices
      obtain ⟨reached, hreached, hlt⟩ := hindices [] index path rfl
      obtain rfl : node = reached := Option.some.inj hreached
      rw [← children_length] at hlt
      refine ⟨_, List.getElem?_eq_getElem hlt, ih.2 fun front index' behind hpath => ?_⟩
      rw [← at?_cons (List.getElem?_eq_getElem hlt)]
      exact hindices (index :: front) index' behind (by rw [hpath, List.cons_append])

end Node

/-! ## The main theorem -/

end MiniC
