import Pins.Proofs.LabelTexts
import Mathlib.Data.Set.Function

/-!
# Written code

The written form of code determines the code if its labels can be told apart and hold no blank and
no line feed (`Ir.text_injOn`). A line says what a node is and with which operands, as words with
blanks between them. How many parts the node has is not said: a call and a list of statements have
as many as there are lines below them one level deeper, up to the first line that is not as deep.
So it is shown for every tree with any lines behind it that leave its depth
(`Ir.Tree.readsBack`).
-/

namespace Pins

namespace Text

/-- A text of one word has nothing in it that ends a word or a line. -/
structure IsWord (text : String) : Prop where
  blank : ' ' ∉ text.toList
  feed : '\n' ∉ text.toList

instance (text : String) : Decidable (IsWord text) :=
  decidable_of_iff (' ' ∉ text.toList ∧ '\n' ∉ text.toList)
    ⟨fun h => ⟨h.1, h.2⟩, fun h => ⟨h.blank, h.feed⟩⟩

/-- A written integer is a word. -/
theorem isWord_intRepr (value : Int) : IsWord value.repr where
  blank hc := by simpa using isDigit_of_mem_intRepr hc
  feed hc := by simpa using isDigit_of_mem_intRepr hc

/-- Words with blanks between them are what stands between the blanks. -/
theorem splitOn_intercalate {words : List String} (h : ∀ word ∈ words, IsWord word)
    (hne : words ≠ []) :
    (" ".intercalate words).toList.splitOn ' ' = words.map String.toList := by
  rw [String.toList_intercalate]
  refine List.splitOn_intercalate ' ' ?_ (by simpa using hne)
  intro word hword
  obtain ⟨text, htext, rfl⟩ := List.mem_map.mp hword
  exact (h text htext).blank

/-- Words with blanks between them can be read back. -/
theorem intercalate_inj {first second : List String} (hf : ∀ word ∈ first, IsWord word)
    (hs : ∀ word ∈ second, IsWord word) (hfirst : first ≠ []) (hsecond : second ≠ [])
    (h : " ".intercalate first = " ".intercalate second) : first = second := by
  have hlists : first.map String.toList = second.map String.toList := by
    rw [← splitOn_intercalate hf hfirst, ← splitOn_intercalate hs hsecond, h]
  exact List.map_injective_iff.mpr (fun _ _ => String.toList_inj.mp) hlists

/-- Words with blanks between them stay on one line. -/
theorem notMem_intercalate {words : List String} (h : ∀ word ∈ words, IsWord word) :
    '\n' ∉ (" ".intercalate words).toList := by
  induction words with
  | nil => simp
  | cons word rest ih =>
    rw [List.forall_mem_cons] at h
    by_cases hrest : rest = []
    · subst hrest
      simpa using h.1.feed
    · rw [String.intercalate_cons_of_ne_nil hrest, String.toList_append, String.toList_append]
      simp only [List.mem_append, not_or]
      exact ⟨⟨h.1.feed, by decide⟩, ih h.2⟩

end Text

open Text

/-- Labels can be read if they are written apart, each of them as one word. -/
structure Label.Legible (labels : Set Label) : Prop where
  /-- No two labels have one written form. -/
  apart : Set.InjOn Label.text labels
  /-- No written form holds a blank or a line feed. -/
  word : ∀ label ∈ labels, IsWord label.text

namespace IndentedLine

variable {line : IndentedLine} {first second rest : List IndentedLine} {depth : Nat}

/-- The text of a line can be told from the indentation in front of it and ends with the line. -/
structure Stands (line : IndentedLine) : Prop where
  /-- The text does not go on with the indentation. -/
  flush : ∀ c ∈ line.text.toList.head?, c ≠ ' '
  /-- The text is one line. -/
  single : '\n' ∉ line.text.toList

/-- The first line of a text, if there is one, is not nested as deep as this. -/
def Leaves (depth : Nat) (lines : List IndentedLine) : Prop :=
  ∀ line ∈ lines.head?, line.depth < depth

theorem toList_renderAll_cons (line : IndentedLine) (rest : List IndentedLine) :
    (renderAll (line :: rest)).toList =
      (List.replicate (2 * line.depth) ' ' ++ line.text.toList) ++
        '\n' :: (renderAll rest).toList := by
  simp [renderAll, render, String.toList_append]

/-- No line is written as the empty text. -/
theorem renderAll_cons_ne (line : IndentedLine) (rest : List IndentedLine) :
    renderAll (line :: rest) ≠ renderAll [] := by
  intro h
  have hlists := congrArg String.toList h
  rw [toList_renderAll_cons] at hlists
  simp [renderAll] at hlists

/-- A written line ends at the first line feed. -/
theorem Stands.isRun_line (h : line.Stands) (behind : List Char) :
    IsRun (· ≠ '\n') (List.replicate (2 * line.depth) ' ' ++ line.text.toList)
      ('\n' :: behind) where
  all c hc := by
    rcases List.mem_append.mp hc with hblank | htext
    · rw [List.eq_of_mem_replicate hblank]
      rfl
    · simpa using ne_of_mem_of_not_mem htext h.single
  next := by simp

/-- The indentation ends at the first character that is no blank. -/
theorem Stands.isRun_indent (h : line.Stands) :
    IsRun (· = ' ') (List.replicate (2 * line.depth) ' ') line.text.toList where
  all c hc := by simpa using List.eq_of_mem_replicate hc
  next c hc := by simpa using h.flush c hc

/-- The first line can be told from what is written below it. -/
theorem Stands.cons_inj {other : IndentedLine} {rest' : List IndentedLine} (hline : line.Stands)
    (hother : other.Stands) (h : renderAll (line :: rest) = renderAll (other :: rest')) :
    line = other ∧ renderAll rest = renderAll rest' := by
  have hlists := congrArg String.toList h
  rw [toList_renderAll_cons, toList_renderAll_cons] at hlists
  obtain ⟨hwritten, hbehind⟩ := (hline.isRun_line _).append_inj (hother.isRun_line _) hlists
  obtain ⟨hindent, htext⟩ := hline.isRun_indent.append_inj hother.isRun_indent hwritten
  have hdepth : line.depth = other.depth := by
    have hlength := congrArg List.length hindent
    rw [List.length_replicate, List.length_replicate] at hlength
    omega
  have hrest := String.toList_inj.mp (List.cons.inj hbehind).2
  exact ⟨congrArg₂ IndentedLine.mk hdepth (String.toList_inj.mp htext), hrest⟩

/-- Lines are determined by their written form. -/
theorem renderAll_inj (hf : ∀ line ∈ first, line.Stands) (hs : ∀ line ∈ second, line.Stands)
    (h : renderAll first = renderAll second) : first = second := by
  induction first generalizing second with
  | nil =>
    cases second with
    | nil => rfl
    | cons line rest => exact absurd h.symm (renderAll_cons_ne line rest)
  | cons line rest ih =>
    cases second with
    | nil => exact absurd h (renderAll_cons_ne line rest)
    | cons other rest' =>
      rw [List.forall_mem_cons] at hf hs
      obtain ⟨rfl, hrest⟩ := hf.1.cons_inj hs.1 h
      rw [ih hf.2 hs.2 hrest]

end IndentedLine

namespace Ir

variable {labels : Set Label} {first second : Tree}

/-- Operators have different marks. -/
theorem Operator.text_inj {first second : Operator} (h : first.text = second.text) :
    first = second := by
  revert h
  cases first <;> cases second <;> decide

theorem Operator.isWord_text (operator : Operator) : IsWord operator.text := by
  cases operator <;> decide

namespace Tree

open IndentedLine (Leaves)

variable {depth : Nat} {rest : List IndentedLine}

/-- What a node is and its operands, as far as they are no code. -/
def words : Tree → List String
  | .expr (.constant value) => ["CONST", value.repr]
  | .expr (.name label) => ["NAME", label.text]
  | .expr (.memory _) => ["MEM"]
  | .expr (.binop operator _ _) => ["BINOP", operator.text]
  | .expr (.call label _) => ["CALL", label.text]
  | .expr (.eseq _ _) => ["ESEQ"]
  | .stmt (.move _ _) => ["MOVE"]
  | .stmt (.exp _) => ["EXP"]
  | .stmt (.seq _) => ["SEQ"]
  | .stmt (.label label) => ["LABEL", label.text]
  | .stmt (.jump target) => ["JUMP", target.text]
  | .stmt (.cjump _ thenTarget elseTarget) => ["CJUMP", thenTarget.text, elseTarget.text]

/-- The parts of a node, in the order in which they are written. -/
def parts : Tree → List Tree
  | .expr (.constant _) | .expr (.name _) | .stmt (.label _) | .stmt (.jump _) => []
  | .expr (.memory address) => [.expr address]
  | .expr (.binop _ left right) => [.expr left, .expr right]
  | .expr (.call _ arguments) => arguments.map .expr
  | .expr (.eseq statement value) => [.stmt statement, .expr value]
  | .stmt (.move destination source) => [.expr destination, .expr source]
  | .stmt (.exp value) => [.expr value]
  | .stmt (.seq statements) => statements.map .stmt
  | .stmt (.cjump condition _ _) => [.expr condition]

/-- The lines of the code of a node at a depth. -/
def lines (depth : Nat) : Tree → List IndentedLine
  | .expr code => code.lines depth
  | .stmt code => code.lines depth

/-- All nodes of the code of a node. -/
def nodes : Tree → List Tree
  | .expr code => code.nodes
  | .stmt code => code.nodes

/-- All labels in the code of a node are among these. -/
def Uses (labels : Set Label) (tree : Tree) : Prop :=
  ∀ node ∈ tree.nodes, ∀ label ∈ node.mentions, label ∈ labels

theorem text_eq (tree : Tree) : tree.text = IndentedLine.renderAll (tree.lines 0) := by
  cases tree <;> rfl

theorem listLines_expr (depth : Nat) (codes : List Expr) :
    Expr.listLines depth codes = codes.flatMap (Expr.lines depth) := by
  induction codes with
  | nil => rfl
  | cons code codes ih => rw [Expr.listLines, ih, List.flatMap_cons]

theorem listLines_stmt (depth : Nat) (codes : List Stmt) :
    Stmt.listLines depth codes = codes.flatMap (Stmt.lines depth) := by
  induction codes with
  | nil => rfl
  | cons code codes ih => rw [Stmt.listLines, ih, List.flatMap_cons]

theorem words_ne_nil (tree : Tree) : tree.words ≠ [] := by
  rcases tree with code | code <;> cases code <;> exact List.cons_ne_nil _ _

/-- The line of a node begins with a letter. -/
theorem flush_words (tree : Tree) : ∀ c ∈ (" ".intercalate tree.words).toList.head?, c ≠ ' ' := by
  rcases tree with code | code <;> cases code <;> simp [words]

/-- A node has a line of its words, and the lines of its parts below, one level deeper. -/
theorem lines_eq (tree : Tree) (depth : Nat) : tree.lines depth =
    ⟨depth, " ".intercalate tree.words⟩ :: tree.parts.flatMap (lines (depth + 1)) := by
  rcases tree with code | code <;> cases code <;>
    simp [lines, words, parts, Expr.lines, Stmt.lines, listLines_expr, listLines_stmt,
      List.flatMap_map, String.append_assoc]

/-- The nodes of a node are the node and the nodes of its parts. -/
theorem nodes_eq (tree : Tree) : tree.nodes = tree :: tree.parts.flatMap nodes := by
  rcases tree with code | code <;> cases code <;> simp [nodes, parts, List.flatMap_map]

/-- A part of a node is smaller. -/
theorem sizeOf_lt_of_mem_parts {part tree : Tree} (h : part ∈ tree.parts) :
    sizeOf part < sizeOf tree := by
  rcases tree with code | code <;> cases code
  case expr.constant | expr.name | stmt.label | stmt.jump => cases h
  case expr.memory | stmt.exp | stmt.cjump =>
    rw [List.mem_singleton.mp h]
    simp +arith
  case expr.binop | expr.eseq | stmt.move =>
    rcases List.mem_pair.mp h with rfl | rfl <;> simp +arith
  case expr.call | stmt.seq =>
    obtain ⟨code, hm, rfl⟩ := List.mem_map.mp h
    have hlt := List.sizeOf_lt_of_mem hm
    simp only [expr.sizeOf_spec, stmt.sizeOf_spec, Expr.call.sizeOf_spec, Stmt.seq.sizeOf_spec]
    omega

/-- The parts of a node use the labels that the node does. -/
theorem Uses.parts {tree : Tree} (h : tree.Uses labels) :
    ∀ part ∈ tree.parts, part.Uses labels := by
  intro part hpart node hnode
  refine h node ?_
  rw [nodes_eq]
  exact List.mem_cons_of_mem _ (List.mem_flatMap.mpr ⟨part, hpart, hnode⟩)

/-- The labels of a node itself are used. -/
theorem Uses.mem {tree : Tree} (h : tree.Uses labels) : ∀ label ∈ tree.mentions, label ∈ labels :=
  h tree (by rw [nodes_eq]; exact List.mem_cons_self)

/-- What a node says is said with words. -/
theorem isWord_of_mem_words {tree : Tree} (hl : Label.Legible labels) (hu : tree.Uses labels) :
    ∀ word ∈ tree.words, IsWord word := by
  have hword : ∀ label ∈ tree.mentions, IsWord label.text :=
    fun label hm => hl.word label (hu.mem label hm)
  rcases tree with code | code <;> cases code <;>
    simp only [words, mentions, List.forall_mem_cons, List.not_mem_nil, false_implies,
      implies_true, and_true] at hword ⊢
  case expr.constant value => exact ⟨by decide, isWord_intRepr value⟩
  case expr.binop operator left right => exact ⟨by decide, operator.isWord_text⟩
  case expr.name | expr.call | stmt.label | stmt.jump | stmt.cjump => exact ⟨by decide, hword⟩
  all_goals decide

/-- A node is determined by its words and its parts. -/
theorem eq_of_words (hl : Label.Legible labels) (hf : first.Uses labels) (hs : second.Uses labels)
    (hwords : first.words = second.words) (hparts : first.parts = second.parts) :
    first = second := by
  have hlabel : ∀ label ∈ first.mentions, ∀ other ∈ second.mentions, label.text = other.text →
      label = other :=
    fun label hm other ho => hl.apart (hf.mem label hm) (hs.mem other ho)
  -- the keyword in front tells the kinds of nodes apart
  rcases first with first | first <;> rcases second with second | second <;>
    cases first <;> cases second <;>
    simp only [words, List.cons.injEq, String.reduceEq, false_and, true_and, and_true,
      reduceCtorEq] at hwords <;>
    simp only [parts, List.cons.injEq, and_true, expr.injEq, stmt.injEq] at hparts
  case expr.expr.constant.constant =>
    rw [intRepr_inj hwords]
  case expr.expr.memory.memory | stmt.stmt.exp.exp =>
    rw [hparts]
  case expr.expr.binop.binop =>
    rw [Operator.text_inj hwords, hparts.1, hparts.2]
  case expr.expr.eseq.eseq | stmt.stmt.move.move =>
    rw [hparts.1, hparts.2]
  case stmt.stmt.seq.seq =>
    rw [List.map_injective_iff.mpr (fun _ _ => stmt.inj) hparts]
  case expr.expr.call.call =>
    rw [hlabel _ (List.mem_singleton_self _) _ (List.mem_singleton_self _) hwords,
      List.map_injective_iff.mpr (fun _ _ => expr.inj) hparts]
  case stmt.stmt.cjump.cjump =>
    have hthen := hlabel _ List.mem_cons_self _ List.mem_cons_self hwords.1
    have hlast : ∀ {first last : Label}, last ∈ [first, last] := by simp
    have helse := hlabel _ hlast _ hlast hwords.2
    rw [hthen, helse, hparts]
  case expr.expr.name.name | stmt.stmt.label.label | stmt.stmt.jump.jump =>
    rw [hlabel _ (List.mem_singleton_self _) _ (List.mem_singleton_self _) hwords]

/-- The words of a node can be read back from its line. -/
theorem words_inj (hl : Label.Legible labels) (hf : first.Uses labels) (hs : second.Uses labels)
    (h : " ".intercalate first.words = " ".intercalate second.words) :
    first.words = second.words :=
  intercalate_inj (isWord_of_mem_words hl hf) (isWord_of_mem_words hl hs) first.words_ne_nil
    second.words_ne_nil h

/-- The first line of a tree does not leave its depth. -/
theorem not_leaves_lines (tree : Tree) : ¬ Leaves depth (tree.lines depth ++ rest) := by
  intro h
  rw [lines_eq] at h
  exact absurd (h _ rfl) (Nat.lt_irrefl depth)

/-- What stands behind the parts of a node leaves their depth. -/
theorem leaves_flatMap_append (trees : List Tree) (h : Leaves depth rest) :
    Leaves (depth + 1) (trees.flatMap (lines depth) ++ rest) := by
  cases trees with
  | nil => exact fun line hline => Nat.lt_succ_of_lt (h line hline)
  | cons tree trees =>
    intro line hline
    rw [List.flatMap_cons, lines_eq] at hline
    cases hline
    exact Nat.lt_succ_self depth

/-- A tree can be told from lines behind it that are not below it. -/
def ReadsBack (labels : Set Label) (tree : Tree) : Prop :=
  ∀ {other depth rest rest'}, other.Uses labels → Leaves (depth + 1) rest →
    Leaves (depth + 1) rest' → tree.lines depth ++ rest = other.lines depth ++ rest' →
    tree = other ∧ rest = rest'

/-- If trees can be read back one by one, then as many of them below each other as there are. -/
theorem flatMap_lines_append_inj {trees others : List Tree} {rest' : List IndentedLine}
    (htrees : ∀ tree ∈ trees, tree.ReadsBack labels) (hothers : ∀ other ∈ others, other.Uses labels)
    (hrest : Leaves depth rest) (hrest' : Leaves depth rest')
    (h : trees.flatMap (lines depth) ++ rest = others.flatMap (lines depth) ++ rest') :
    trees = others ∧ rest = rest' := by
  induction trees generalizing others with
  | nil =>
    cases others with
    | nil => exact ⟨rfl, h⟩
    | cons other others =>
      -- the first line of another tree would stand where the depth was left
      rw [List.flatMap_nil, List.nil_append, List.flatMap_cons, List.append_assoc] at h
      exact absurd (h ▸ hrest) other.not_leaves_lines
  | cons tree trees ih =>
    cases others with
    | nil =>
      rw [List.flatMap_nil, List.nil_append, List.flatMap_cons, List.append_assoc] at h
      exact absurd (h ▸ hrest') tree.not_leaves_lines
    | cons other others =>
      rw [List.forall_mem_cons] at htrees hothers
      rw [List.flatMap_cons, List.append_assoc, List.flatMap_cons, List.append_assoc] at h
      obtain ⟨rfl, hbehind⟩ := htrees.1 hothers.1 (leaves_flatMap_append trees hrest)
        (leaves_flatMap_append others hrest') h
      obtain ⟨rfl, hend⟩ := ih htrees.2 hothers.2 hbehind
      exact ⟨rfl, hend⟩

/-- A tree with legible labels can be read back. -/
theorem readsBack (hl : Label.Legible labels) (tree : Tree) (hu : tree.Uses labels) :
    tree.ReadsBack labels := by
  intro other depth rest rest' hother hrest hrest' h
  rw [lines_eq, lines_eq] at h
  obtain ⟨hline, hbelow⟩ := List.cons.inj h
  have hwords := words_inj hl hu hother (IndentedLine.mk.inj hline).2
  -- what stands behind the tree leaves the depth of its parts, so these can be read back first
  have hparts : ∀ part ∈ tree.parts, part.ReadsBack labels :=
    fun part hpart => readsBack hl part (hu.parts part hpart)
  obtain ⟨hsame, hbehind⟩ := flatMap_lines_append_inj hparts hother.parts hrest hrest' hbelow
  exact ⟨eq_of_words hl hu hother hwords hsame, hbehind⟩
termination_by sizeOf tree
decreasing_by exact sizeOf_lt_of_mem_parts hpart

/-- All lines of a tree can be told apart when they are written. -/
theorem stands_of_mem_lines (hl : Label.Legible labels) (tree : Tree) (hu : tree.Uses labels)
    (depth : Nat) : ∀ line ∈ tree.lines depth, line.Stands := by
  rw [lines_eq, List.forall_mem_cons]
  refine ⟨⟨tree.flush_words, notMem_intercalate (isWord_of_mem_words hl hu)⟩, fun line hline => ?_⟩
  obtain ⟨part, hpart, hm⟩ := List.mem_flatMap.mp hline
  exact stands_of_mem_lines hl part (hu.parts part hpart) (depth + 1) line hm
termination_by sizeOf tree
decreasing_by exact sizeOf_lt_of_mem_parts hpart

end Tree

/-- Code whose labels are legible is determined by its written form. -/
theorem text_injOn (hl : Label.Legible labels) :
    Set.InjOn Tree.text {tree | tree.Uses labels} := by
  intro first hf second hs h
  rw [Tree.text_eq, Tree.text_eq] at h
  have hlines := IndentedLine.renderAll_inj (first.stands_of_mem_lines hl hf 0)
    (second.stands_of_mem_lines hl hs 0) h
  have hempty : IndentedLine.Leaves (0 + 1) [] := fun _ hline => nomatch hline
  refine (first.readsBack hl hf hs hempty hempty ?_).1
  rw [hlines]

/-- The second number is an argument of the inner call or of the outer one. -/
theorem text_injOn_of_nested :
    Label.Legible {.named "f", .named "g"} ∧
      (Tree.expr (.call (.named "f") [.call (.named "g") [.constant 1], .constant 2])).text ≠
        (Tree.expr (.call (.named "f") [.call (.named "g") [.constant 1, .constant 2]])).text := by
  have hl : Label.Legible {.named "f", .named "g"} := by
    constructor
    · rintro _ (rfl | rfl) _ (rfl | rfl) <;> simp [Label.text]
    · rintro _ (rfl | rfl) <;> decide
  refine ⟨hl, fun h => ?_⟩
  have hsame := text_injOn hl (by simp [Tree.Uses, Tree.nodes, Tree.mentions])
    (by simp [Tree.Uses, Tree.nodes, Tree.mentions]) h
  simp at hsame

end Ir

end Pins
