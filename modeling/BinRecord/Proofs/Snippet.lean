/-
What an excerpt of schema text shows: the marked line, clipped at 32 characters on each side of what is marked, with
dots where something was cut off, and carets in the columns of the marked characters. The position of every word, and
that of the end of a text, lies in the line that the excerpt shows.
-/
import BinRecord.Proofs.Schema.Division
import BinRecord.Snippet

namespace BinRecord

theorem Text.split_eq_splitOnP (p : Char → Bool) (cs : List Char) : Text.split p cs = cs.splitOnP p := by
  induction cs with
  | nil => rfl
  | cons c cs ih =>
    obtain ⟨part, parts, hparts⟩ := List.exists_cons_of_ne_nil (split_ne_nil p cs)
    rw [List.splitOnP_cons_eq_if_modifyHead, ← ih, hparts]
    unfold split at hparts ⊢
    rw [List.foldr_cons, hparts]
    rfl

namespace Snippet

/-! ## Lines -/

/-- The line of a text with the given number. It stands behind a line end or at the start of the text, and up to the
next line end or the end of the text; its number is one more than there are line ends before it. -/
structure IsLine (cs : List Char) (n : Int) (line : List Char) : Prop where
  inside : '\n' ∉ line
  placed : ∃ before after, cs = before ++ (line ++ after) ∧ n = 1 + before.count '\n' ∧
    (before = [] ∨ ∃ others, before = others ++ ['\n']) ∧ (after = [] ∨ ∃ others, after = '\n' :: others)

variable {cs line : List Char} {n : Int} {p : TextPosition}

theorem lines_append_cons (before after : List Char) :
    lines (before ++ '\n' :: after) = lines before ++ lines after := by
  simp only [lines, Text.split_eq_splitOnP]
  exact List.splitOnP_append_cons before after (by simp)

theorem lines_of_not_mem (h : '\n' ∉ line) : lines line = [line] := by
  rw [lines, Text.split_eq_splitOnP]
  refine List.splitOnP_eq_singleton fun c hc => ?_
  simpa using fun hn : c = '\n' => h (hn ▸ hc)

theorem length_lines (cs : List Char) : (lines cs).length = cs.count '\n' + 1 := by
  simp only [lines, Text.split_eq_splitOnP]
  induction cs with
  | nil => rfl
  | cons c cs ih =>
    rw [List.splitOnP_cons_eq_if_modifyHead, List.count_cons]
    by_cases hc : c = '\n'
    · simp [hc, ih]
    · simp [hc, ih]

theorem lineAt_eq (h : IsLine cs n line) : lineAt cs n = line := by
  obtain ⟨before, after, rfl, rfl, hbefore, hafter⟩ := h.placed
  have hhead : (lines (line ++ after))[0]? = some line := by
    rcases hafter with rfl | ⟨others, rfl⟩
    · rw [List.append_nil, lines_of_not_mem h.inside]
      rfl
    · rw [lines_append_cons, lines_of_not_mem h.inside]
      rfl
  have hget : (lines (before ++ (line ++ after)))[before.count '\n']? = some line := by
    rcases hbefore with rfl | ⟨others, rfl⟩
    · exact hhead
    · have hcount : (others ++ ['\n']).count '\n' = (lines others).length := by
        simp [length_lines, List.count_append]
      rw [List.append_assoc, List.singleton_append, lines_append_cons, hcount,
        List.getElem?_append_right (Nat.le_refl _), Nat.sub_self]
      exact hhead
  have hplace : (1 + (before.count '\n' : Int) - 1).toNat = before.count '\n' := by omega
  rw [lineAt, if_pos (by omega), hplace, hget, Option.getD_some]

/-- The characters around a place in a line, up to the line ends on both sides, are the line. -/
theorem isLine_around {before line : List Char} (after : List Char) (hline : '\n' ∉ line)
    (hbefore : before = [] ∨ ∃ others, before = others ++ ['\n']) :
    IsLine (before ++ (line ++ after)) (1 + before.count '\n') (line ++ after.takeWhile (· ≠ '\n')) := by
  refine ⟨?_, before, after.dropWhile (· ≠ '\n'), ?_, rfl, hbefore, ?_⟩
  · rw [List.mem_append, not_or]
    refine ⟨hline, fun hmem => ?_⟩
    simpa using List.all_eq_true.1 (List.all_takeWhile (p := fun c : Char => decide (c ≠ '\n')) (l := after)) _ hmem
  · rw [List.append_assoc, List.takeWhile_append_dropWhile]
  · cases hrest : after.dropWhile (· ≠ '\n') with
    | nil => exact .inl rfl
    | cons c others =>
      have hhead := List.head?_dropWhile_not (fun c : Char => decide (c ≠ '\n')) after
      rw [hrest] at hhead
      have hc : c = '\n' := by simpa using hhead
      exact .inr ⟨others, by rw [hc]⟩

theorem exists_lineStart (cs : List Char) {k : Nat} (h : k ≤ cs.count '\n') : ∃ before after, cs = before ++ after ∧
    before.count '\n' = k ∧ (before = [] ∨ ∃ others, before = others ++ ['\n']) := by
  induction k with
  | zero => exact ⟨[], cs, rfl, rfl, .inl rfl⟩
  | succ k ih =>
    obtain ⟨before, after, rfl, hcount, -⟩ := ih (Nat.le_of_succ_le h)
    rw [List.count_append, hcount] at h
    have hmem : '\n' ∈ after := List.count_pos_iff.1 (by omega)
    obtain ⟨line, others, rfl, hline⟩ := List.eq_append_cons_of_mem hmem
    refine ⟨before ++ (line ++ ['\n']), others, by simp, ?_, .inr ⟨before ++ line, by simp⟩⟩
    rw [List.count_append, List.count_append, hcount, List.count_eq_zero.2 hline, List.count_singleton_self]

/-- The lines of a text are numbered from one on. -/
theorem exists_isLine_iff : (∃ line, IsLine cs n line) ↔ 0 < n ∧ n ≤ 1 + cs.count '\n' := by
  constructor
  · rintro ⟨line, -, before, after, rfl, rfl, -⟩
    rw [List.count_append]
    omega
  · rintro ⟨hpos, hle⟩
    obtain ⟨before, after, rfl, hcount, hbefore⟩ := exists_lineStart cs (k := (n - 1).toNat) (by omega)
    have hn : n = 1 + (before.count '\n' : Int) := by omega
    rw [hn]
    exact ⟨_, isLine_around after List.not_mem_nil hbefore⟩

/-- A position lies in a line that shows what stands before it and the characters that it marks. -/
theorem exists_line_of_liesAt {i length : Nat} (h : p.LiesAt cs i length) (hmarked : '\n' ∉ p.marked cs) :
    ∃ before after, IsLine cs p.line (before ++ (p.marked cs ++ after)) ∧ p.column = before.length + 1 ∧
      (i = cs.length → after = []) := by
  obtain ⟨first, ⟨hfirst, hinside, hstart⟩, hcolumn⟩ := h.column
  have hle := h.le
  have hextract := h.marked_eq
  have hsplit : cs = cs.take first ++ ((cs.extract first i ++ p.marked cs) ++ cs.drop (i + length)) := by
    rw [hextract, List.append_assoc, ← Token.drop_eq_extract_append cs (Nat.le_add_right i length),
      ← Token.drop_eq_extract_append cs hfirst, List.take_append_drop]
  have hcount : p.line = 1 + (cs.take first).count '\n' := by
    have htake : cs.take i = cs.take first ++ cs.extract first i := by
      have := Token.extract_append_extract cs (Nat.zero_le first) hfirst
      simpa [List.extract] using this.symm
    rw [h.line, htake, List.count_append, List.count_eq_zero.2 hinside]
    rfl
  have hline : '\n' ∉ cs.extract first i ++ p.marked cs := by
    rw [List.mem_append, not_or]
    exact ⟨hinside, hmarked⟩
  have hbefore : cs.take first = [] ∨ ∃ others, cs.take first = others ++ ['\n'] := by
    rcases hstart with rfl | hend
    · exact .inl rfl
    · cases first with
      | zero => exact .inl rfl
      | succ k =>
        rw [Nat.add_sub_cancel] at hend
        exact .inr ⟨cs.take k, by rw [List.take_add_one, hend]; rfl⟩
  have haround := isLine_around (cs.drop (i + length)) hline hbefore
  rw [← hsplit, ← hcount, List.append_assoc] at haround
  refine ⟨_, _, haround, ?_, ?_⟩
  · rw [hcolumn]
    simp [List.extract]
    omega
  · rintro rfl
    rw [List.drop_eq_nil_of_le (Nat.le_add_right ..)]
    rfl

/-! ## Clipping -/

/-- A line in three parts, of which an excerpt shows the middle one. -/
structure Clip where
  before : List Char
  shown : List Char
  after : List Char

namespace Clip

/-- What stands to the left of the middle part: dots, if something was cut off there. -/
def leftEdge (c : Clip) : List Char := if c.before = [] then "        ".toList else "     .. ".toList

/-- What stands to the right of the middle part: dots, if something was cut off there. -/
def rightEdge (c : Clip) : List Char := if c.after = [] then [] else " ..".toList

/-- The output line that shows the middle part. -/
def row (c : Clip) : List Char := c.leftEdge ++ (c.shown ++ c.rightEdge)

/-- The column in which `row` shows the character at place `k` of the line. -/
def column (c : Clip) (k : Nat) : Nat := 8 + (k - c.before.length)

/-- The parts of a line of which an excerpt shows 32 characters before the place `start`, and 32 from `stop` on. -/
def around (line : List Char) (start stop : Nat) : Clip :=
  ⟨line.take (start - 32), line.extract (start - 32) (stop + 32), line.drop (stop + 32)⟩

theorem around_whole (line : List Char) {start stop : Nat} (h : start ≤ stop) :
    (around line start stop).before ++ ((around line start stop).shown ++ (around line start stop).after) = line := by
  have hle : start - 32 ≤ stop + 32 := by omega
  rw [around, ← Token.drop_eq_extract_append line hle, List.take_append_drop]

theorem length_around_before {line : List Char} {start : Nat} (stop : Nat) (h : start ≤ line.length) :
    (around line start stop).before.length = start - 32 := by
  rw [around, List.length_take]
  omega

theorem length_around_after (line : List Char) (start stop : Nat) :
    (around line start stop).after.length = line.length - (stop + 32) := by
  rw [around, List.length_drop]

theorem length_leftEdge (c : Clip) : c.leftEdge.length = 8 := by
  unfold leftEdge
  split <;> rfl

/-- Where nothing is cut off on the right, the row ends behind the last character of the line. -/
theorem length_row (c : Clip) (h : c.after = []) :
    c.column (c.before ++ (c.shown ++ c.after)).length = c.row.length := by
  have hright : c.rightEdge = [] := if_pos h
  simp only [row, column, hright, h, List.length_append, c.length_leftEdge, List.length_nil]
  omega

/-- A row shows the middle part of the line from column eight on. -/
theorem row_extract (c : Clip) {i j : Nat} (hi : c.before.length ≤ i) (hij : i ≤ j)
    (hj : j ≤ c.before.length + c.shown.length) :
    c.row.extract (c.column i) (c.column j) = (c.before ++ (c.shown ++ c.after)).extract i j := by
  have hwidth : c.column j - c.column i = j - i := by
    rw [column, column]
    omega
  -- on both sides the middle part stands behind some characters, and ends not before `j`
  have hmiddle : ∀ before after : List Char, ((before ++ (c.shown ++ after)).drop
      (before.length + (i - c.before.length))).take (j - i) = (c.shown.drop (i - c.before.length)).take (j - i) := by
    intro before after
    rw [← List.drop_drop, List.drop_left, List.drop_append_of_le_length (by omega),
      List.take_append_of_le_length (by rw [List.length_drop]; omega)]
  have hleft := hmiddle c.leftEdge c.rightEdge
  have hright := hmiddle c.before c.after
  rw [c.length_leftEdge] at hleft
  rw [Nat.add_sub_cancel' hi] at hright
  rw [List.extract, List.extract, hwidth, row, column, hleft, hright]

end Clip

/-- Two output lines show a line of the text around its places from `start` to `stop`, and mark these with carets. -/
structure Marks (clip : Clip) (line : List Char) (start stop : Nat) (first second : List Char) : Prop where
  whole : clip.before ++ (clip.shown ++ clip.after) = line
  before : clip.before.length = start - 32
  after : clip.after.length = line.length - (stop + 32)
  row : first = clip.row
  carets : ∀ i, second[i]? = some '^' ↔ clip.column start ≤ i ∧ i < clip.column stop
  blanks : ∀ c ∈ second, c = ' ' ∨ c = '^'
  single : '\n' ∉ first ∧ '\n' ∉ second

/-- A position marks `length` characters of a line, from the place `start` on. -/
structure InLine (cs : List Char) (p : TextPosition) (line : List Char) (start length : Nat) : Prop where
  isLine : IsLine cs p.line line
  column_eq : p.column = start + 1
  length_eq : p.length = length
  pos : 1 ≤ length
  le : start + length ≤ line.length

/-- A position just behind the end of a line. -/
structure AtLineEnd (cs : List Char) (p : TextPosition) (line : List Char) : Prop where
  isLine : IsLine cs p.line line
  column_eq : p.column = line.length + 1
  length_le : p.length ≤ 1

theorem cut_natCast (line : List Char) (i j : Nat) :
    cut line i (min j line.length : Nat) = line.extract i j := by
  have hi : ¬ (i : Int) < 0 := by omega
  have hj : ¬ ((min j line.length : Nat) : Int) < 0 := by omega
  simp only [cut, if_neg hi, if_neg hj, Int.toNat_natCast]
  rw [← List.take_eq_take_min, List.drop_take, List.extract]

/-- The output lines are those of the parts of the line, clipped around the characters that are marked. -/
theorem rows_eq (h : IsLine cs p.line line) {start length : Nat} (hcolumn : p.column = start + 1)
    (hlength : max p.length 1 = length) (hle : start ≤ line.length) :
    rows cs p = ((Clip.around line start (start + length)).row,
      List.replicate ((Clip.around line start (start + length)).column start) ' ' ++ List.replicate length '^') := by
  have hstart : p.column - 1 = start := by omega
  have hfrom : max (start : Int) margin - margin = (start - 32 : Nat) := by rw [margin]; omega
  have hto : min ((start : Int) + length + margin) line.length = (min (start + length + 32) line.length : Nat) := by
    rw [margin]; omega
  have hleft : ((start - 32 : Nat) : Int) = 0 ↔ line.take (start - 32) = [] := by
    rw [List.take_eq_nil_iff, ← List.length_eq_zero_iff]
    omega
  have hright : (line.length : Int) ≤ (min (start + length + 32) line.length : Nat) ↔
      line.drop (start + length + 32) = [] := by
    rw [List.drop_eq_nil_iff]
    omega
  have hbefore : (line.take (start - 32)).length = start - 32 := by
    rw [List.length_take]
    omega
  rw [rows]
  simp only [lineAt_eq h, hstart, hlength, hfrom, hto, cut_natCast, hleft, hright, Clip.row, Clip.column,
    Clip.leftEdge, Clip.rightEdge, Clip.around, hbefore, run, Prod.mk.injEq]
  constructor
  · rw [List.append_assoc]
    congr 1
    by_cases hcut : line.take (start - 32) = []
    · simp only [hcut, if_true]
      rfl
    · simp only [hcut, if_false]
      rfl
  · have hedge : ∀ (c : Prop) [Decidable c], (if c then "    ".toList else " .. ".toList).length = 4 := by
      intro c _
      split <;> rfl
    have hblanks : ((4 : Nat) + (start : Int) - (start - 32 : Nat)).toNat = 4 + (start - (start - 32)) := by omega
    have hcarets : ((start : Int) + length - start).toNat = length := by omega
    rw [hedge, hblanks, hcarets]
    show List.replicate 4 ' ' ++ _ ++ _ = _
    rw [List.replicate_append_replicate, ← Nat.add_assoc]

theorem exists_marks (h : IsLine cs p.line line) {start length : Nat} (hcolumn : p.column = start + 1)
    (hlength : max p.length 1 = length) (hle : start ≤ line.length) :
    ∃ clip, Marks clip line start (start + length) (rows cs p).1 (rows cs p).2 := by
  rw [rows_eq h hcolumn hlength hle]
  have hwhole := Clip.around_whole line (Nat.le_add_right start length)
  have hbefore := Clip.length_around_before (start + length) hle
  have hafter := Clip.length_around_after line start (start + length)
  generalize Clip.around line start (start + length) = clip at hwhole hbefore hafter ⊢
  have hstop : clip.column (start + length) = clip.column start + length := by
    rw [Clip.column, Clip.column]
    omega
  refine ⟨clip, hwhole, hbefore, hafter, rfl, fun i => ?_, fun c hc => ?_, ?_, ?_⟩
  · rw [hstop]
    simp only [List.getElem?_append, List.length_replicate, List.getElem?_replicate]
    split
    · simp; omega
    · simp; omega
  · rw [List.mem_append, List.mem_replicate, List.mem_replicate] at hc
    exact hc.imp And.right And.right
  · have hline := h.inside
    rw [← hwhole, List.mem_append, List.mem_append, not_or, not_or] at hline
    have hedges : '\n' ∉ clip.leftEdge ∧ '\n' ∉ clip.rightEdge := by
      unfold Clip.leftEdge Clip.rightEdge
      constructor <;> split <;> simp
    simp [Clip.row, hline, hedges]
  · simp

theorem lineEnd_not_mem_of_spelled {l : Lexeme} (h : l.Spelled) : '\n' ∉ l.text.toList := by
  obtain ⟨c, as, he, hcases⟩ := Token.chars_of_spelled h
  rw [he]
  intro hmem
  rcases hcases with ⟨hc, has⟩ | hdigits | ⟨hc, rfl⟩
  · have hpart : Token.isNamePart '\n' = true := by
      rcases List.mem_cons.1 hmem with hn | hn
      · exact hn ▸ Token.isNamePart_of_isNameStart hc
      · exact has _ hn
    exact absurd hpart (by decide)
  · exact absurd (hdigits _ hmem) (by decide)
  · rw [← List.mem_singleton.1 hmem] at hc
    exact absurd hc (by decide +kernel)

/-- Every word stands in a line. -/
theorem exists_inLine {t : Token} (h : t.StandsIn cs) :
    ∃ line start, InLine cs t.position line start t.lexeme.text.length ∧
      line.extract start (start + t.lexeme.text.length) = t.lexeme.text.toList := by
  have hlength := Token.length_text t.lexeme
  obtain ⟨c, as, he, -⟩ := Token.chars_of_spelled h.spelled
  obtain ⟨before, after, hline, hcolumn, -⟩ :=
    exists_line_of_liesAt h.placed (h.marked ▸ lineEnd_not_mem_of_spelled h.spelled)
  rw [h.marked] at hline
  refine ⟨_, before.length, ⟨hline, hcolumn, h.placed.length, ?_, ?_⟩, ?_⟩
  · rw [← hlength, he, List.length_cons]
    exact Nat.le_add_left ..
  · rw [List.length_append, List.length_append, hlength]
    omega
  · simp [List.extract, ← hlength]

/-- A text ends at the end of its last line. -/
theorem exists_atLineEnd (h : p.LiesAt cs cs.length 1) : ∃ line, AtLineEnd cs p line := by
  have hmarked : p.marked cs = [] := by
    rw [h.marked_eq, List.extract, List.drop_length, List.take_nil]
  obtain ⟨before, after, hline, hcolumn, hafter⟩ := exists_line_of_liesAt h (by simp [hmarked])
  rw [hmarked, hafter rfl, List.append_nil, List.append_nil] at hline
  exact ⟨before, hline, hcolumn, Int.le_of_eq h.length⟩

/-- An excerpt shows the line of its position around what the position marks, with the carets in the columns of the
marked characters; behind the end of a line, a single caret stands behind what is shown. The words of a text stand in
its lines, and the text ends at the end of a line. -/
theorem render_marks (text : String) :
    (∀ n : Int, (∃ line, IsLine text.toList n line) ↔ 0 < n ∧ n ≤ 1 + text.toList.count '\n') ∧
    (∀ p line start length, InLine text.toList p line start length → ∃ clip first second,
      render text p = String.ofList (first ++ '\n' :: (second ++ ['\n'])) ∧
      Marks clip line start (start + length) first second ∧
      first.extract (clip.column start) (clip.column (start + length)) = line.extract start (start + length)) ∧
    (∀ p line, AtLineEnd text.toList p line → ∃ clip first second,
      render text p = String.ofList (first ++ '\n' :: (second ++ ['\n'])) ∧
      Marks clip line line.length (line.length + 1) first second ∧
      clip.after = [] ∧ clip.column line.length = first.length) ∧
    ∀ words, Token.scan text = .ok words →
      (∀ t ∈ words.tokens, ∃ line start, InLine text.toList t.position line start t.lexeme.text.length ∧
        line.extract start (start + t.lexeme.text.length) = t.lexeme.text.toList) ∧
      ∃ line, AtLineEnd text.toList words.finish line := by
  have hrender : ∀ p, render text p =
      String.ofList ((rows text.toList p).1 ++ '\n' :: ((rows text.toList p).2 ++ ['\n'])) := fun p => by
    rw [← List.cons_append, ← List.append_assoc]
    rfl
  refine ⟨fun n => exists_isLine_iff, fun p line start length h => ?_, fun p line h => ?_, fun words hscan => ?_⟩
  · have hlength : max p.length 1 = length := by have := h.length_eq; have := h.pos; omega
    have hle := h.le
    obtain ⟨clip, hmarks⟩ := exists_marks h.isLine h.column_eq hlength (by omega)
    refine ⟨clip, _, _, hrender p, hmarks, ?_⟩
    have hbefore := hmarks.before
    have hafter := hmarks.after
    have hfrom : clip.before.length ≤ start := by omega
    have hto : start + length ≤ clip.before.length + clip.shown.length := by
      have hwhole := congrArg List.length hmarks.whole
      rw [List.length_append, List.length_append] at hwhole
      omega
    rw [hmarks.row, clip.row_extract hfrom (Nat.le_add_right ..) hto, hmarks.whole]
  · have hlength : max p.length 1 = (1 : Nat) := by have := h.length_le; omega
    obtain ⟨clip, hmarks⟩ := exists_marks h.isLine h.column_eq hlength (Nat.le_refl _)
    have hafter : clip.after = [] := by
      rw [← List.length_eq_zero_iff, hmarks.after]
      omega
    refine ⟨clip, _, _, hrender p, hmarks, hafter, ?_⟩
    rw [hmarks.row, ← clip.length_row hafter, hmarks.whole]
  · obtain ⟨hts, hfinish⟩ := Token.divides_of_scan hscan
    exact ⟨fun t ht => exists_inLine (hts.standsIn t ht), exists_atLineEnd hfinish⟩

end Snippet

end BinRecord
