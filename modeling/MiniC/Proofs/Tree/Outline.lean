import MiniC.Tree.Inorder
import MiniC.Tree.Outline

/-!
# An outline determines its tree

The lines of an outline are indented, and the indentation shows what lies below what. It is not
needed: a tree can be told from its lines alone, read from the top, because the kind of a node says
how many children it has. What the texts in the tree look like does not matter, as long as each of
them stays on one line.

## The crux

After a node and all that is below it comes the rest of the outline, and nothing in the lines says
where one ends and the other begins. So two outlines are compared together with whatever comes
after the trees (`Expr.unplaced_eq_of_labels`): that the rests agree is what the second operand of
an operator needs to know about the first one.

## The architecture

* **`linesOf`** cuts a text at its newlines, and **`linesOf_flatMap`** finds lines again that were
  written one below the other. **`OneLine.linesOf_outline`** is this for an outline.
* **`label_inj`** reads the kind and the value of a node off its line: no name of a kind has a
  parenthesis in it, so the first one ends the name, whatever the value is.
* **`outline_determines_tree`** is the result.
-/

namespace MiniC

/-! ## Lines of a text -/

/-- The lines of a text. Each newline ends a line, and what is behind the last one is a line if
there is anything. -/
def linesOf : List Char → List (List Char)
  | [] => []
  | c :: text =>
    if c = '\n' then [] :: linesOf text
    else
      match linesOf text with
      | [] => [[c]]
      | line :: lines => (c :: line) :: lines

theorem linesOf_append_newline {line : List Char} (h : '\n' ∉ line) (text : List Char) :
    linesOf (line ++ '\n' :: text) = line :: linesOf text := by
  induction line with
  | nil => exact if_pos rfl
  | cons c line ih =>
    rw [List.mem_cons, not_or] at h
    rw [List.cons_append, linesOf, if_neg (Ne.symm h.1), ih h.2]

/-- Lines that are written one below the other are found again. -/
theorem linesOf_flatMap {lines : List (List Char)} (h : ∀ line ∈ lines, '\n' ∉ line) :
    linesOf (lines.flatMap (· ++ ['\n'])) = lines := by
  induction lines with
  | nil => rfl
  | cons line lines ih =>
    rw [List.flatMap_cons, List.append_assoc, List.singleton_append,
      linesOf_append_newline (h line List.mem_cons_self),
      ih fun later hlater => h later (List.mem_cons_of_mem _ hlater)]

/-! ## Labels -/

namespace Node

/-- How a value is shown behind the name of a kind. -/
def shownValue (value : String) : List Char :=
  if value = "" then [] else '(' :: (value.toList ++ [')'])

theorem toList_label (node : Node) :
    node.label.toList = node.kind.name.toList ++ shownValue node.value := by
  unfold label shownValue
  split <;> simp

/-- The value can be told from how it is shown. An empty one is not shown at all. -/
theorem shownValue_inj {v w : String} (h : shownValue v = shownValue w) : v = w := by
  unfold shownValue at h
  split at h <;> split at h
  next hv hw => rw [hv, hw]
  next => cases h
  next => cases h
  next => exact String.toList_inj.1 (List.append_cancel_right (List.cons.inj h).2)

/-- The first parenthesis ends the name of the kind. -/
theorem takeWhile_label (node : Node) :
    node.label.toList.takeWhile (· != '(') = node.kind.name.toList := by
  have hname : ∀ c ∈ node.kind.name.toList, (c != '(') = true := by
    rw [← List.all_eq_true]
    cases node.kind <;> decide
  rw [toList_label, List.takeWhile_append_of_pos hname]
  unfold shownValue
  split <;> simp

/-- **A line shows the kind and the value of its node.** -/
theorem label_inj {a b : Node} (h : a.label = b.label) : a.kind = b.kind ∧ a.value = b.value := by
  have hname : a.kind.name.toList = b.kind.name.toList := by
    rw [← takeWhile_label, ← takeWhile_label, h]
  have hvalue : a.kind.name.toList ++ shownValue a.value =
      a.kind.name.toList ++ shownValue b.value := by
    rw [← toList_label, h, toList_label, hname]
  exact ⟨Kind.name_inj (String.toList_inj.1 hname), shownValue_inj (List.append_cancel_left hvalue)⟩

/-- No name of a kind starts with a blank, so a line without its indentation is the label. -/
theorem dropWhile_outlineLine (level : Nat) (node : Node) :
    (node.outlineLine level).toList.dropWhile (· = ' ') = node.label.toList := by
  have hindent : ∀ c ∈ List.replicate (2 * level) ' ', decide (c = ' ') = true := by
    intro c hc
    exact decide_eq_true (List.eq_of_mem_replicate hc)
  have hname : ∃ c name, node.kind.name.toList = c :: name ∧ c ≠ ' ' := by
    cases node.kind <;> exact ⟨_, _, rfl, by decide⟩
  obtain ⟨c, name, hcons, hne⟩ := hname
  rw [outlineLine, String.toList_append, String.toList_ofList,
    List.dropWhile_append_of_pos hindent, toList_label, hcons, List.cons_append,
    List.dropWhile_cons_of_neg (by simpa using hne)]

/-- A line is broken by no newline but one in the value. -/
theorem newline_not_mem_outlineLine (level : Nat) {node : Node}
    (h : '\n' ∉ node.value.toList) : '\n' ∉ (node.outlineLine level).toList := by
  have hindent : '\n' ∉ List.replicate (2 * level) ' ' := by simp [List.mem_replicate]
  have hname : '\n' ∉ node.kind.name.toList := by
    cases node.kind <;> decide
  have hvalue : '\n' ∉ shownValue node.value := by
    unfold shownValue
    split <;> simp [h]
  rw [outlineLine, String.toList_append, String.toList_ofList, toList_label]
  simp [hindent, hname, hvalue]

end Node

/-! ## The lines of an outline -/

/-- No name and no literal in the program is broken by a newline. Otherwise they are arbitrary. -/
structure Program.OneLine (program : Program) : Prop where
  name : '\n' ∉ program.function.name.toList
  literals : ∀ text, .literal text ∈ program.returned.marks → '\n' ∉ text.toList

/-- Operators are written without newlines, so only literals count. -/
theorem Expr.newline_not_mem_value {e : Expr}
    (h : ∀ text, .literal text ∈ e.marks → '\n' ∉ text.toList) (level : Nat) :
    ∀ entry ∈ e.preorder level, '\n' ∉ entry.2.value.toList := by
  induction e generalizing level with
  | literal text location =>
    intro entry hentry
    obtain rfl := List.mem_singleton.1 hentry
    exact h text List.mem_cons_self
  | unary op operand location ih =>
    intro entry hentry
    rcases List.mem_cons.1 hentry with rfl | hentry
    · show '\n' ∉ op.sign.toList
      cases op <;> decide
    · exact ih (fun text htext => h text (List.mem_cons_of_mem _ htext)) (level + 1) entry hentry
  | binary op left right location ihl ihr =>
    simp only [marks_binary, List.mem_append, List.mem_cons] at h
    intro entry hentry
    rcases List.mem_cons.1 hentry with rfl | hentry
    · show '\n' ∉ op.sign.toList
      cases op <;> decide
    rcases List.mem_append.1 hentry with hleft | hright
    · exact ihl (fun text htext => h text (.inl htext)) (level + 1) entry hleft
    · exact ihr (fun text htext => h text (.inr (.inr htext))) (level + 1) entry hright

namespace Program.OneLine

variable {program : Program}

/-- So all nodes of the program are shown on one line each. -/
theorem value (h : program.OneLine) :
    ∀ entry ∈ (Node.program program).preorder 0, '\n' ∉ entry.2.value.toList := by
  intro entry hentry
  simp only [Node.preorder, List.mem_cons] at hentry
  rcases hentry with rfl | rfl | rfl | hentry
  · show '\n' ∉ "".toList
    decide
  · exact h.name
  · show '\n' ∉ "return".toList
    decide
  · exact Expr.newline_not_mem_value h.literals 3 entry hentry

/-- The lines of an outline are those of the nodes. -/
theorem linesOf_outline (h : program.OneLine) :
    linesOf program.outline.toList =
      ((Node.program program).preorder 0).map fun (level, part) =>
        (part.outlineLine level).toList := by
  have hlines : ∀ line ∈ ((Node.program program).preorder 0).map fun (level, part) =>
      (part.outlineLine level).toList, '\n' ∉ line := by
    intro line hline
    obtain ⟨⟨level, part⟩, hentry, rfl⟩ := List.mem_map.1 hline
    exact Node.newline_not_mem_outlineLine level (h.value _ hentry)
  rw [← linesOf_flatMap hlines, Program.outline, String.toList_join, Node.outlineLines]
  simp [List.flatMap_map, Function.comp_def]

end Program.OneLine

/-! ## Reading a tree from its labels -/

def Expr.labels : Expr → List String
  | literal text location => [Node.label (.expr (literal text location))]
  | unary op operand location => Node.label (.expr (unary op operand location)) :: operand.labels
  | binary op left right location =>
    Node.label (.expr (binary op left right location)) :: (left.labels ++ right.labels)

/-- The labels are those of the nodes in preorder, at whatever level these are. -/
theorem Expr.map_label_preorder (level : Nat) (e : Expr) :
    (e.preorder level).map (fun entry => entry.2.label) = e.labels := by
  induction e generalizing level with
  | literal => rfl
  | unary op operand location ih => simp only [preorder, labels, List.map_cons, ih]
  | binary op left right location ihl ihr =>
    simp only [preorder, labels, List.map_cons, List.map_append, ihl, ihr]

/-- **Labels determine a tree, whatever comes after it.** -/
theorem Expr.unplaced_eq_of_labels {e f : Expr} {after after' : List String}
    (h : e.labels ++ after = f.labels ++ after') : e.unplaced = f.unplaced ∧ after = after' := by
  induction e generalizing f after after' with
  | literal text location =>
    cases f with
    | literal text' location' =>
      obtain ⟨hlabel, hafter⟩ := List.cons.inj h
      obtain ⟨-, rfl⟩ := Node.label_inj hlabel
      exact ⟨rfl, hafter⟩
    | unary => cases (Node.label_inj (List.cons.inj h).1).1
    | binary => cases (Node.label_inj (List.cons.inj h).1).1
  | unary op operand location ih =>
    cases f with
    | unary op' operand' location' =>
      obtain ⟨hlabel, hbelow⟩ := List.cons.inj h
      obtain rfl := UnaryOp.sign_inj (Node.label_inj hlabel).2
      obtain ⟨hoperand, hafter⟩ := ih hbelow
      exact ⟨by rw [unplaced, unplaced, hoperand], hafter⟩
    | literal => cases (Node.label_inj (List.cons.inj h).1).1
    | binary => cases (Node.label_inj (List.cons.inj h).1).1
  | binary op left right location ihl ihr =>
    cases f with
    | binary op' left' right' location' =>
      obtain ⟨hlabel, hbelow⟩ := List.cons.inj h
      obtain rfl := BinaryOp.sign_inj (Node.label_inj hlabel).2
      -- what comes after the left operands begins with the right ones
      have hoperands : left.labels ++ (right.labels ++ after) =
          left'.labels ++ (right'.labels ++ after') := by
        rw [← List.append_assoc, ← List.append_assoc]
        exact hbelow
      obtain ⟨hleft, hrest⟩ := ihl hoperands
      obtain ⟨hright, hafter⟩ := ihr hrest
      exact ⟨by rw [unplaced, unplaced, hleft, hright], hafter⟩
    | literal => cases (Node.label_inj (List.cons.inj h).1).1
    | unary => cases (Node.label_inj (List.cons.inj h).1).1

namespace Program

/-- The lines of the outline without the blanks in front of them. -/
def bareLines (program : Program) : List (List Char) :=
  (linesOf program.outline.toList).map (·.dropWhile (· = ' '))

/-- The labels of all nodes of a program, from the top. -/
def labels (program : Program) : List String :=
  Node.label (.program program) :: Node.label (.function program.function) ::
    Node.label (.statement program.function.body) :: program.returned.labels

/-- The bare lines of a program are its labels. -/
theorem OneLine.bareLines_eq {program : Program} (h : program.OneLine) :
    program.bareLines = program.labels.map String.toList := by
  rw [bareLines, h.linesOf_outline, labels, ← Expr.map_label_preorder 3]
  simp [Node.preorder, Node.dropWhile_outlineLine]

/-- **The labels determine a program**, up to places. -/
theorem unplaced_eq_of_labels {p q : Program} (h : p.labels = q.labels) :
    p.unplaced = q.unplaced := by
  obtain ⟨-, hbelow⟩ := List.cons.inj h
  obtain ⟨hfunction, hbody⟩ := List.cons.inj hbelow
  obtain ⟨-, hreturned⟩ := List.cons.inj hbody
  have hname : p.function.name = q.function.name := (Node.label_inj hfunction).2
  have hlabels : p.returned.labels ++ [] = q.returned.labels ++ [] := by rw [hreturned]
  rw [unplaced, unplaced, hname, (Expr.unplaced_eq_of_labels hlabels).1]

/-- **An outline determines its tree, even without the indentation.** Two programs whose texts stay
on one line have the same bare lines exactly when they are equal up to places, and so it is with
the outlines as they are. -/
theorem outline_determines_tree {p q : Program} (hp : p.OneLine) (hq : q.OneLine) :
    (p.bareLines = q.bareLines ↔ p.unplaced = q.unplaced) ∧
      (p.outline = q.outline ↔ p.unplaced = q.unplaced) := by
  have hbare (h : p.bareLines = q.bareLines) : p.unplaced = q.unplaced := by
    rw [hp.bareLines_eq, hq.bareLines_eq] at h
    exact unplaced_eq_of_labels ((List.map_inj_right fun _ _ => String.toList_inj.1).1 h)
  have houtline (h : p.unplaced = q.unplaced) : p.outline = q.outline := by
    rw [← outline_unplaced p, h, outline_unplaced]
  have hlines (h : p.outline = q.outline) : p.bareLines = q.bareLines := by
    rw [bareLines, h, bareLines]
  exact ⟨⟨hbare, hlines ∘ houtline⟩, ⟨hbare ∘ hlines, houtline⟩⟩

/-- Both groupings of three literals, with texts that look like other parts of a line. -/
theorem outline_determines_tree_groupings :
    let literal (text : String) : Expr := .literal text {}
    let minus (left right : Expr) : Expr := .binary .subtract left right {}
    let returning (e : Expr) : Program := ⟨⟨"f (x", ⟨e, {}⟩, {}⟩⟩
    let p := returning (minus (minus (literal " 1)") (literal "")) (literal "(3"))
    let q := returning (minus (literal " 1)") (minus (literal "") (literal "(3")))
    p.OneLine ∧ q.OneLine ∧ p.bareLines ≠ q.bareLines ∧ p.outline ≠ q.outline := by
  intro literal minus returning p q
  have hp : p.OneLine := ⟨by decide, by simp [p, returning, minus, literal, Program.returned]⟩
  have hq : q.OneLine := ⟨by decide, by simp [q, returning, minus, literal, Program.returned]⟩
  have hne : p.unplaced ≠ q.unplaced := by decide
  obtain ⟨hbare, houtline⟩ := outline_determines_tree hp hq
  exact ⟨hp, hq, mt hbare.1 hne, mt houtline.1 hne⟩

end Program

end MiniC
