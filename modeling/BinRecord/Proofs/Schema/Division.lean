/-
How the scanner divides a text. The words stand in it one after the other, each as long as it can be, and between
them are blanks and comments only; their positions tell line and column. Where a character starts nothing the scan
fails, at the first such character. Blanks and comments that are put behind a word change no word.
-/
import BinRecord.Proofs.Schema.Scan
import BinRecord.Proofs.Traversal

namespace BinRecord

/-! ## Places -/

/-- The characters of a text that a position marks. -/
def TextPosition.marked (p : TextPosition) (cs : List Char) : List Char :=
  cs.extract p.offset.toNat (p.offset + p.length).toNat

/-- A line starts at the place `first`, and the place `i` lies in it or at its end. -/
structure StartsLine (cs : List Char) (first i : Nat) : Prop where
  le : first ≤ i
  inside : '\n' ∉ cs.extract first i
  start : first = 0 ∨ cs[first - 1]? = some '\n'

/-- A position is that of `length` characters from the place `i` on. Its line is one more than there are line ends
before the place, and its column is one more than there are characters before it in the line. -/
structure TextPosition.LiesAt (p : TextPosition) (cs : List Char) (i length : Nat) : Prop where
  le : i ≤ cs.length
  offset : p.offset = i
  length : p.length = length
  line : p.line = 1 + (cs.take i).count '\n'
  column : ∃ first, StartsLine cs first i ∧ p.column = i - first + 1

theorem TextPosition.LiesAt.marked_eq {p : TextPosition} {cs : List Char} {i length : Nat} (h : p.LiesAt cs i length) :
    p.marked cs = cs.extract i (i + length) := by
  rw [marked, h.offset, h.length]
  congr 1

namespace Token

/-- The scanner counts lines by their ends, and columns from the start of the line. -/
theorem exists_place_after (before : List Char) : ∃ lines line, before = lines ++ line ∧ '\n' ∉ line ∧
    (lines = [] ∨ ∃ earlier, lines = earlier ++ ['\n']) ∧
    Place.after {} before = ⟨1 + before.count '\n', line.length + 1, before.length⟩ := by
  induction before using List.reverseRecOn with
  | nil => exact ⟨[], [], rfl, by simp, .inl rfl, rfl⟩
  | append_singleton before c ih =>
    obtain ⟨lines, line, hsplit, hline, hlines, hplace⟩ := ih
    have hnext : Place.after {} (before ++ [c]) = (Place.after {} before).next c := by
      simp [Place.after]
    rw [hnext, hplace]
    by_cases hc : c = '\n'
    · subst hc
      refine ⟨before ++ ['\n'], [], by simp, by simp, .inr ⟨before, rfl⟩, ?_⟩
      simp [Place.next, List.count_append]
      omega
    · refine ⟨lines, line ++ [c], by simp [hsplit], by simp [hline, Ne.symm hc], hlines, ?_⟩
      simp [Place.next, hc, List.count_append]

theorem position_liesAt (before after : List Char) (length : Nat) :
    ((Place.after {} before).position length).LiesAt (before ++ after) before.length length := by
  obtain ⟨lines, line, hsplit, hline, hlines, hplace⟩ := exists_place_after before
  rw [hplace]
  refine ⟨by simp, rfl, rfl, by simp [Place.position], lines.length, ⟨by simp [hsplit], ?_, ?_⟩, ?_⟩
  · simpa [hsplit, List.extract, List.append_assoc] using hline
  · rcases hlines with rfl | ⟨earlier, rfl⟩
    · exact .inl rfl
    · exact .inr (by simp [hsplit])
  · simp [Place.position, hsplit]

end Token

/-! ## Words and gaps -/

/-- The words that there are: names, figures, and marks of one character. -/
inductive Lexeme.Spelled : Lexeme → Prop
  | name {x : String} {c : Char} {as : List Char} : x.toList = c :: as → (c.isAlpha = true ∨ c = '_') →
      (∀ d ∈ as, d.isAlphanum = true ∨ d = '_' ∨ d = '-') → Spelled (.name x)
  | figures {x : String} : x.toList ≠ [] → (∀ c ∈ x.toList, c.isDigit = true) → Spelled (.figures x)
  | mark {c : Char} : c ∈ ['\x7b', '\x7d', ':', '[', ']', '<', '>', ',', ';', '+'] → Spelled (.mark c)

/-- The characters that separate words. -/
def IsBlank (c : Char) : Prop := c = ' ' ∨ c = '\t' ∨ c = '\r' ∨ c = '\n'

/-- The place of the first character of a word. -/
def Token.start (t : Token) : Nat := t.position.offset.toNat

/-- The place behind a word. -/
def Token.stop (t : Token) : Nat := (t.position.offset + t.position.length).toNat

/-- A word stands in a text where its position says, and no longer word starts there. -/
structure Token.StandsIn (cs : List Char) (t : Token) : Prop where
  spelled : t.lexeme.Spelled
  placed : t.position.LiesAt cs t.start t.lexeme.text.length
  marked : t.position.marked cs = t.lexeme.text.toList
  longest : ∀ l : Lexeme, l.Spelled → l.text.toList <+: cs.drop t.start → l.text.length ≤ t.lexeme.text.length

/-- Blanks, and comments up to the end of their line, before `rest`. -/
inductive Gap (rest : List Char) : List Char → Prop
  | nil : Gap rest []
  | blank {c : Char} {gap : List Char} : IsBlank c → Gap rest gap → Gap rest (c :: gap)
  | comment {body gap : List Char} : '\n' ∉ body → Stops (· ≠ '\n') (gap ++ rest) → Gap rest gap →
      Gap rest ('#' :: (body ++ gap))

/-- Between two places of a text there are blanks and comments only. -/
structure GapBetween (cs : List Char) (i j : Nat) : Prop where
  le : i ≤ j
  gap : Gap (cs.drop j) (cs.extract i j)

/-- From the place `i` to the place `j` a text is made up of the given words, one after the other, and of gaps. -/
inductive Divides (cs : List Char) (j : Nat) : Nat → List Token → Prop
  | gap {i : Nat} : GapBetween cs i j → Divides cs j i []
  | word {i : Nat} {t : Token} {ts : List Token} : GapBetween cs i t.start → t.StandsIn cs →
      Divides cs j t.stop ts → Divides cs j i (t :: ts)

/-- A character with which no word, blank or comment starts. -/
def StartsNothing (c : Char) : Prop :=
  ¬ IsBlank c ∧ c ≠ '#' ∧ ∀ l : Lexeme, l.Spelled → l.text.toList.head? ≠ some c

/-! ## Pieces -/

namespace Token

theorem length_text (l : Lexeme) : l.text.toList.length = l.text.length := String.length_toList

theorem prefix_takeWhile {p : Char → Bool} {as cs : List Char} (has : ∀ c ∈ as, p c = true) (h : as <+: cs) :
    as.length ≤ (cs.takeWhile p).length := by
  obtain ⟨rest, rfl⟩ := h
  rw [List.takeWhile_append_of_pos has]
  simp

theorem isSpace_iff {c : Char} : isSpace c = true ↔ IsBlank c := by
  simp only [isSpace, IsBlank, Bool.or_eq_true, decide_eq_true_eq, or_assoc]

theorem spelled_name_iff {x : String} : (Lexeme.name x).Spelled ↔ isName x = true := by
  have hstart : ∀ c : Char, isNameStart c = true ↔ c.isAlpha = true ∨ c = '_' := by simp [isNameStart]
  have hpart : ∀ c : Char, isNamePart c = true ↔ c.isAlphanum = true ∨ c = '_' ∨ c = '-' := by
    simp [isNamePart, or_assoc]
  unfold isName
  constructor
  · rintro ⟨he, hc, has⟩
    rw [he]
    simp only [Bool.and_eq_true, List.all_eq_true, hstart, hpart]
    exact ⟨hc, has⟩
  · intro h
    split at h
    · cases h
    · rename_i c as he
      simp only [Bool.and_eq_true, List.all_eq_true, hstart, hpart] at h
      exact .name he h.1 h.2

theorem spelled_mark_iff {c : Char} : (Lexeme.mark c).Spelled ↔ isMark c = true := by
  have hmarks : "\x7b\x7d:[]<>,;+".toList = ['\x7b', '\x7d', ':', '[', ']', '<', '>', ',', ';', '+'] := by
    decide +kernel
  rw [isMark, hmarks, List.contains_iff_mem]
  constructor
  · rintro ⟨⟩
    assumption
  · exact .mark

/-- What the scanner reads at once: blanks, a comment up to the end of its line, or a longest word. -/
inductive IsPiece : Piece → Prop
  | blanks {taken rest : List Char} : (∀ c ∈ taken, IsBlank c) → IsPiece ⟨none, taken, rest⟩
  | comment {body rest : List Char} : '\n' ∉ body → Stops (· ≠ '\n') rest → IsPiece ⟨none, '#' :: body, rest⟩
  | word {l : Lexeme} {taken rest : List Char} : l.Spelled → l.text.toList = taken →
      (∀ l' : Lexeme, l'.Spelled → l'.text.toList <+: taken ++ rest → l'.text.length ≤ taken.length) →
      IsPiece ⟨some l, taken, rest⟩

/-- How the characters of a word begin and go on. -/
theorem chars_of_spelled {l : Lexeme} (h : l.Spelled) : ∃ c as, l.text.toList = c :: as ∧
    (isNameStart c = true ∧ (∀ d ∈ as, isNamePart d = true) ∨ (∀ d ∈ c :: as, d.isDigit = true) ∨
      isMark c = true ∧ as = []) := by
  cases l with
  | name x =>
    have hx := spelled_name_iff.1 h
    unfold isName at hx
    split at hx
    · cases hx
    · rename_i c as he
      rw [Bool.and_eq_true, List.all_eq_true] at hx
      exact ⟨c, as, he, .inl hx⟩
  | figures x =>
    cases h with
    | figures hne hdigits =>
      obtain ⟨c, as, he⟩ := List.exists_cons_of_ne_nil hne
      exact ⟨c, as, he, .inr (.inl (he ▸ hdigits))⟩
  | mark c => exact ⟨c, [], by simp [Lexeme.text], .inr (.inr ⟨spelled_mark_iff.1 h, rfl⟩)⟩

/-- No word that starts with the character `c` is longer than the run of characters that go on with one. -/
theorem length_le_of_spelled {l : Lexeme} (h : l.Spelled) {c : Char} {cs : List Char} {p : Char → Bool}
    (hbegin : l.text.toList <+: c :: cs)
    (hname : isNameStart c = true → ∀ d, isNamePart d = true → p d = true)
    (hdigit : isNameStart c = false → c.isDigit = true → ∀ d, d.isDigit = true → p d = true) :
    l.text.length ≤ (c :: cs.takeWhile p).length := by
  obtain ⟨d, as, he, hcases⟩ := chars_of_spelled h
  rw [← length_text, he, List.length_cons, List.length_cons]
  rw [he, List.cons_prefix_cons] at hbegin
  obtain ⟨rfl, hbegin⟩ := hbegin
  rcases hcases with ⟨hstart, has⟩ | hdigits | ⟨-, rfl⟩
  · exact Nat.succ_le_succ (prefix_takeWhile (fun a ha => hname hstart a (has a ha)) hbegin)
  · rw [List.forall_mem_cons] at hdigits
    have hstart := not_isNameStart_of_isDigit hdigits.1
    exact Nat.succ_le_succ (prefix_takeWhile (fun a ha => hdigit hstart hdigits.1 a (hdigits.2 a ha)) hbegin)
  · simp

theorem isPiece_of_piece? {c : Char} {cs : List Char} {piece : Piece} (h : piece? c cs = some piece) :
    IsPiece piece ∧ c :: cs = piece.taken ++ piece.rest := by
  have hsplit : ∀ p : Char → Bool, c :: cs = (c :: cs.takeWhile p) ++ cs.dropWhile p := fun p => by
    rw [List.cons_append, List.takeWhile_append_dropWhile]
  unfold piece? at h
  split at h
  · rename_i hspace
    cases h
    refine ⟨.blanks (List.forall_mem_cons.2 ⟨isSpace_iff.1 hspace, fun d hd => isSpace_iff.1 ?_⟩), hsplit _⟩
    exact List.all_eq_true.1 List.all_takeWhile d hd
  split at h
  · rename_i hc
    cases h
    subst hc
    refine ⟨.comment ?_ ?_, hsplit _⟩
    · intro hmem
      simpa using List.all_eq_true.1 (List.all_takeWhile (p := fun d : Char => decide (d ≠ '\n')) (l := cs)) _ hmem
    · intro d hd
      have hhead := List.head?_dropWhile_not (fun d : Char => decide (d ≠ '\n')) cs
      rw [Option.mem_def] at hd
      rw [hd] at hhead
      exact hhead
  split at h
  · rename_i hstart
    cases h
    refine ⟨.word (spelled_name_iff.2 ?_) String.toList_ofList fun l hl hbegin => ?_, hsplit _⟩
    · simp only [isName, String.toList_ofList, hstart, Bool.true_and]
      exact List.all_takeWhile
    · rw [← hsplit] at hbegin
      refine length_le_of_spelled hl hbegin (fun _ _ hd => hd) fun hnot => ?_
      rw [hstart] at hnot
      cases hnot
  rename_i hstart
  split at h
  · rename_i hdigit
    cases h
    refine ⟨.word (.figures ?_ ?_) String.toList_ofList fun l hl hbegin => ?_, hsplit _⟩
    · simp
    · rw [String.toList_ofList, List.forall_mem_cons]
      exact ⟨hdigit, List.all_eq_true.1 List.all_takeWhile⟩
    · rw [← hsplit] at hbegin
      exact length_le_of_spelled hl hbegin (fun hname => absurd hname hstart) fun _ _ _ hd => hd
  rename_i hdigit
  split at h
  · rename_i hmark
    cases h
    refine ⟨.word (spelled_mark_iff.2 hmark) (by simp [Lexeme.text]) fun l hl hbegin => ?_, rfl⟩
    -- only one character can be read here, whatever follows
    have hlength := length_le_of_spelled (p := fun _ => false) hl hbegin (fun hname => absurd hname hstart)
      fun _ hd => absurd hd hdigit
    have hnone : cs.takeWhile (fun _ => false) = [] := by cases cs <;> rfl
    exact hnone ▸ hlength
  · cases h

theorem startsNothing_of_piece? {c : Char} {cs : List Char} (h : piece? c cs = none) : StartsNothing c := by
  unfold piece? at h
  split at h
  · cases h
  rename_i hspace
  split at h
  · cases h
  rename_i hc
  split at h
  · cases h
  rename_i hstart
  split at h
  · cases h
  rename_i hdigit
  split at h
  · cases h
  rename_i hmark
  refine ⟨fun hblank => hspace (isSpace_iff.2 hblank), hc, fun l hl hhead => ?_⟩
  obtain ⟨d, as, he, hcases⟩ := chars_of_spelled hl
  rw [he, List.head?_cons, Option.some.injEq] at hhead
  subst hhead
  rcases hcases with ⟨hname, -⟩ | hdigits | ⟨hd, -⟩
  · exact hstart hname
  · exact hdigit (hdigits d (List.mem_cons_self ..))
  · exact hmark hd

/-! ## The scan -/

/-- What scanning a text from the place `i` on comes to, when the words before are `done`, the latest first. -/
inductive Scanned (cs : List Char) (i : Nat) (done : List Token) : Except SchemaError TokenList → Prop
  | ok {ts : List Token} {p : TextPosition} : Divides cs cs.length i ts → p.LiesAt cs cs.length 1 →
      Scanned cs i done (.ok ⟨done.reverse ++ ts, p⟩)
  | error {ts : List Token} {c : Char} {j : Nat} {p : TextPosition} : Divides cs j i ts → cs[j]? = some c →
      StartsNothing c → p.LiesAt cs j 1 → Scanned cs i done (.error ⟨.unknownToken c, some p, none⟩)

variable {cs : List Char} {i j k : Nat} {done : List Token} {r : Except SchemaError TokenList}

theorem gap_append {rest g h : List Char} (hg : Gap (h ++ rest) g) (hh : Gap rest h) : Gap rest (g ++ h) := by
  induction hg with
  | nil => exact hh
  | blank hc _ ih => exact .blank hc ih
  | @comment body g hbody hstop _ ih =>
    rw [List.cons_append, List.append_assoc]
    exact .comment hbody (by rwa [List.append_assoc]) ih

theorem drop_eq_extract_append (cs : List Char) (h : k ≤ j) : cs.drop k = cs.extract k j ++ cs.drop j := by
  have htail : cs.drop j = (cs.drop k).drop (j - k) := by rw [List.drop_drop, Nat.add_sub_cancel' h]
  rw [htail]
  exact (List.take_append_drop (j - k) (cs.drop k)).symm

theorem extract_append_extract (cs : List Char) (hi : i ≤ k) (hk : k ≤ j) :
    cs.extract i k ++ cs.extract k j = cs.extract i j := by
  have hdrop : cs.drop k = (cs.drop i).drop (k - i) := by rw [List.drop_drop, Nat.add_sub_cancel' hi]
  have hlength : j - i = (k - i) + (j - k) := by omega
  unfold List.extract
  rw [hdrop, hlength, List.take_add]

theorem gapBetween_trans (hi : GapBetween cs i k) (hk : GapBetween cs k j) : GapBetween cs i j := by
  refine ⟨Nat.le_trans hi.le hk.le, ?_⟩
  rw [← extract_append_extract cs hi.le hk.le]
  exact gap_append (drop_eq_extract_append cs hk.le ▸ hi.gap) hk.gap

theorem divides_of_gap {ts : List Token} (hi : GapBetween cs i k) (h : Divides cs j k ts) : Divides cs j i ts := by
  cases h with
  | gap hk => exact .gap (gapBetween_trans hi hk)
  | word hk ht hts => exact .word (gapBetween_trans hi hk) ht hts

theorem gapBetween_self (cs : List Char) (i : Nat) : GapBetween cs i i := ⟨Nat.le_refl i, by
  rw [List.extract, Nat.sub_self, List.take_zero]
  exact .nil⟩

theorem gapBetween_of_append {before gap after : List Char} (h : Gap after gap) :
    GapBetween (before ++ (gap ++ after)) before.length (before ++ gap).length := by
  refine ⟨by simp, ?_⟩
  simpa [List.extract] using h

theorem gap_blanks {rest taken : List Char} (h : ∀ c ∈ taken, IsBlank c) : Gap rest taken := by
  induction taken with
  | nil => exact .nil
  | cons c taken ih =>
    rw [List.forall_mem_cons] at h
    exact .blank h.1 (ih h.2)

theorem gap_comment {rest body : List Char} (hbody : '\n' ∉ body) (hstop : Stops (· ≠ '\n') rest) :
    Gap rest ('#' :: body) := by
  have h : Gap rest ('#' :: (body ++ [])) := .comment hbody hstop .nil
  rwa [List.append_nil] at h

/-- A word stands where the scanner reads it. -/
theorem standsIn_of_append (before : List Char) {taken rest : List Char} {l : Lexeme} (hl : l.Spelled)
    (htext : l.text.toList = taken)
    (hlongest : ∀ l' : Lexeme, l'.Spelled → l'.text.toList <+: taken ++ rest → l'.text.length ≤ taken.length) {t : Token}
    (ht : t = ⟨l, (Place.after {} before).position taken.length⟩) :
    t.StandsIn (before ++ (taken ++ rest)) ∧ t.start = before.length ∧ t.stop = (before ++ taken).length := by
  subst ht
  have hlength : l.text.length = taken.length := by rw [← length_text, htext]
  have hplaced := position_liesAt before (taken ++ rest) taken.length
  have hstart : (⟨l, (Place.after {} before).position taken.length⟩ : Token).start = before.length := by
    rw [Token.start, hplaced.offset, Int.toNat_natCast]
  have hstop : ((before.length : Int) + (taken.length : Int)).toNat = before.length + taken.length := by omega
  refine ⟨⟨hl, ?_, ?_, ?_⟩, hstart, ?_⟩
  · rw [hstart, hlength]
    exact hplaced
  · rw [TextPosition.marked, hplaced.offset, hplaced.length, htext, hstop, Int.toNat_natCast, List.extract,
      List.drop_left, Nat.add_sub_cancel_left, List.take_left]
  · rw [hstart, hlength, List.drop_left]
    exact hlongest
  · rw [Token.stop, hplaced.offset, hplaced.length, hstop, List.length_append]

theorem scanned_of_gap (hi : GapBetween cs i k) (h : Scanned cs k done r) : Scanned cs i done r := by
  cases h with
  | ok hts hp => exact .ok (divides_of_gap hi hts) hp
  | error hts hc hnothing hp => exact .error (divides_of_gap hi hts) hc hnothing hp

theorem scanned_of_word {t : Token} (ht : t.StandsIn cs) (h : Scanned cs t.stop (t :: done) r) :
    Scanned cs t.start done r := by
  cases h with
  | ok hts hp =>
    rw [List.reverse_cons, List.append_assoc]
    exact .ok (.word (gapBetween_self cs _) ht hts) hp
  | error hts hc hnothing hp => exact .error (.word (gapBetween_self cs _) ht hts) hc hnothing hp

/-- The scan goes on from the place behind the characters that it has read. -/
theorem scanned_scanFrom {place : Place} (rest : List Char) :
    ∀ before : List Char, place = Place.after {} before →
      Scanned (before ++ rest) before.length done (scanFrom place done rest) := by
  fun_induction scanFrom place done rest with
  | case1 place done =>
    rintro before rfl
    have hplaced := position_liesAt before [] 1
    rw [List.append_nil] at hplaced ⊢
    have hok : Scanned before before.length done (.ok ⟨done.reverse ++ [], _⟩) :=
      .ok (.gap (gapBetween_self before before.length)) hplaced
    rwa [List.append_nil] at hok
  | case2 place done c cs hp =>
    rintro before rfl
    exact .error (.gap (gapBetween_self _ _)) (by simp) (startsNothing_of_piece? hp) (position_liesAt ..)
  | case3 place done c cs piece hp word ih =>
    rintro before rfl
    obtain ⟨hpiece, hsplit⟩ := isPiece_of_piece? hp
    have hafter : (Place.after {} before).after piece.taken = Place.after {} (before ++ piece.taken) := by
      rw [Place.after, Place.after, Place.after, List.foldl_append]
    have hrest := ih (before ++ piece.taken) hafter
    rw [List.append_assoc] at hrest
    rw [hsplit]
    cases hpiece with
    | blanks hspace => exact scanned_of_gap (gapBetween_of_append (gap_blanks hspace)) hrest
    | comment hbody hstop => exact scanned_of_gap (gapBetween_of_append (gap_comment hbody hstop)) hrest
    | word hl htext hlongest =>
      obtain ⟨ht, hstart, hstop⟩ := standsIn_of_append before hl htext hlongest rfl
      rw [← hstop] at hrest
      rw [← hstart]
      exact scanned_of_word ht hrest

theorem scanned_scan (text : String) : Scanned text.toList 0 [] (scan text) := scanned_scanFrom text.toList [] rfl

theorem divides_of_scan {text : String} {words : TokenList} (h : scan text = .ok words) :
    Divides text.toList text.toList.length 0 words.tokens ∧
      words.finish.LiesAt text.toList text.toList.length 1 := by
  have hscanned := scanned_scan text
  rw [h] at hscanned
  cases hscanned with
  | ok hts hp => exact ⟨hts, hp⟩

end Token

/-! ## What stands between words does not matter -/

open Token

/-- Blanks, and comments with the line ends behind them. -/
inductive Filler : List Char → Prop
  | nil : Filler []
  | blank {c : Char} {as : List Char} : IsBlank c → Filler as → Filler (c :: as)
  | comment {body as : List Char} : '\n' ∉ body → Filler as → Filler ('#' :: (body ++ '\n' :: as))

variable {cs rest as bs : List Char} {ls : List Lexeme}

theorem Gap.congr {rest' : List Char} (h : Gap rest as) (hhead : rest.head? = rest'.head?) : Gap rest' as := by
  induction h with
  | nil => exact .nil
  | blank hc _ ih => exact .blank hc ih
  | @comment body as hbody hstop _ ih =>
    refine .comment hbody ?_ ih
    intro c hc
    refine hstop c ?_
    rwa [List.head?_append, hhead, ← List.head?_append]

/-- A gap does not start with a character that a name goes on with. -/
theorem Gap.stops (h : Gap rest as) : Stops isNamePart as := by
  cases h with
  | nil => exact .nil
  | blank hc => exact .cons (isNamePart_of_isSpace (isSpace_iff.2 hc))
  | comment => exact .cons (by decide)

theorem Filler.gap (h : Filler as) (rest : List Char) : Gap rest as := by
  induction h with
  | nil => exact .nil
  | blank hc _ ih => exact .blank hc ih
  | comment hbody _ ih => exact .comment hbody (.cons (by decide)) (.blank (isSpace_iff.1 (by decide)) ih)

/-- A filler is one also from its first line end on. -/
theorem Filler.exists_split (h : Filler as) : ∃ line others, as = line ++ others ∧ '\n' ∉ line ∧
    Stops (· ≠ '\n') others ∧ Filler others := by
  induction h with
  | nil => exact ⟨[], [], rfl, by simp, .nil, .nil⟩
  | @blank c as hc has ih =>
    by_cases hn : c = '\n'
    · exact ⟨[], c :: as, rfl, by simp, .cons (by simpa using hn), .blank hc has⟩
    · obtain ⟨line, others, rfl, hline, hstop, hothers⟩ := ih
      exact ⟨c :: line, others, rfl, by simp [hline, Ne.symm hn], hstop, hothers⟩
  | @comment body as hbody has ih =>
    exact ⟨'#' :: body, '\n' :: as, rfl, by simp [hbody], .cons (by decide), .blank (isSpace_iff.1 (by decide)) has⟩

/-- What is put at the end of a text prolongs the gap there. -/
theorem Gap.filler (h : Gap [] as) (hbs : Filler bs) : Gap [] (as ++ bs) := by
  induction h with
  | nil => exact hbs.gap []
  | blank hc _ ih => exact .blank hc ih
  | @comment body as hbody hstop _ ih =>
    cases as with
    | nil =>
      -- the comment goes on up to the first line end of the filler
      obtain ⟨line, others, rfl, hline, hstop, hothers⟩ := hbs.exists_split
      rw [List.append_nil, List.cons_append, ← List.append_assoc]
      exact .comment (by simp [hbody, hline]) (by rwa [List.append_nil]) (hothers.gap [])
    | cons c as =>
      rw [List.cons_append, List.append_assoc]
      exact .comment hbody (.cons (hstop c rfl)) ih

theorem Words.gap (hg : Gap rest as) (h : Words rest ls) : Words (as ++ rest) ls := by
  induction hg with
  | nil => exact h
  | blank hc _ ih => exact .blank (isSpace_iff.2 hc) ih
  | comment hbody hstop _ ih =>
    rw [List.cons_append, List.append_assoc]
    exact .comment hbody hstop ih

/-- The characters with which a word goes on. -/
def Lexeme.goesOn : Lexeme → Char → Bool
  | name _ => isNamePart
  | figures _ => Char.isDigit
  | mark _ => fun _ => false

theorem Words.word {l : Lexeme} (hl : l.Spelled) (hstop : Stops l.goesOn rest) (h : Words rest ls) :
    Words (l.text.toList ++ rest) (l :: ls) := by
  cases l with
  | name x => exact .name (spelled_name_iff.1 hl) hstop h
  | figures x =>
    cases hl with
    | figures hne hdigits => exact .digits hne hdigits hstop h
  | mark c =>
    have htext : (Lexeme.mark c).text.toList = [c] := by simp [Lexeme.text]
    rw [htext]
    exact .mark (spelled_mark_iff.1 hl) h

theorem Lexeme.stops_goesOn (l : Lexeme) (h : Stops isNamePart rest) : Stops l.goesOn rest := by
  intro c hc
  have hpart := h c hc
  cases l with
  | name => exact hpart
  | figures =>
    by_cases hd : c.isDigit = true
    · rw [isNamePart_of_isDigit hd] at hpart
      cases hpart
    · exact Bool.eq_false_iff.2 hd
  | mark => rfl

/-- A word that goes on could be longer. -/
theorem Lexeme.exists_longer {l : Lexeme} (hl : l.Spelled) {c : Char} (hc : l.goesOn c = true) :
    ∃ l' : Lexeme, l'.Spelled ∧ l'.text.toList = l.text.toList ++ [c] := by
  cases hl with
  | @name x d as he hd has =>
    have hpart : c.isAlphanum = true ∨ c = '_' ∨ c = '-' := by
      simpa [goesOn, isNamePart, or_assoc] using hc
    refine ⟨.name (String.ofList (x.toList ++ [c])), ?_, String.toList_ofList⟩
    refine .name (by rw [String.toList_ofList, he]; rfl) hd ?_
    exact List.forall_mem_append.2 ⟨has, List.forall_mem_singleton.2 hpart⟩
  | @figures x hne hdigits =>
    refine ⟨.figures (String.ofList (x.toList ++ [c])), .figures ?_ ?_, String.toList_ofList⟩
    · simp
    · rw [String.toList_ofList]
      exact List.forall_mem_append.2 ⟨hdigits, List.forall_mem_singleton.2 hc⟩
  | mark => cases hc

namespace Token.StandsIn

variable {t : Token}

theorem stop_eq (h : t.StandsIn cs) : t.stop = t.start + t.lexeme.text.length := by
  have := h.placed.offset
  have := h.placed.length
  rw [stop]
  omega

theorem drop_start (h : t.StandsIn cs) : cs.drop t.start = t.lexeme.text.toList ++ cs.drop t.stop := by
  have hmarked : cs.extract t.start t.stop = t.lexeme.text.toList := h.marked
  rw [← hmarked]
  exact drop_eq_extract_append cs (by rw [h.stop_eq]; omega)

theorem stops (h : t.StandsIn cs) : Stops t.lexeme.goesOn (cs.drop t.stop) := by
  intro c hc
  by_contra hgoes
  obtain ⟨rest, hrest⟩ := List.head?_eq_some_iff.1 hc
  obtain ⟨l, hl, htext⟩ := t.lexeme.exists_longer h.spelled (by simpa using hgoes)
  have hlonger := h.longest l hl ⟨rest, by rw [h.drop_start, hrest, htext]; simp⟩
  have hlength := congrArg List.length htext
  rw [length_text, List.length_append, length_text, List.length_singleton] at hlength
  omega

end Token.StandsIn

namespace Divides

variable {i j : Nat} {ts us : List Token}

/-- The place behind the last of some words, or `i` if there is none. -/
def behind (i : Nat) : List Token → Nat
  | [] => i
  | t :: ts => behind t.stop ts

theorem behind_append (i : Nat) (ts us : List Token) : behind i (ts ++ us) = behind (behind i ts) us := by
  induction ts generalizing i with
  | nil => rfl
  | cons t ts ih => exact ih t.stop

theorem standsIn (h : Divides cs j i ts) : ∀ t ∈ ts, t.StandsIn cs := by
  induction h with
  | gap => simp
  | word _ ht _ ih => exact List.forall_mem_cons.2 ⟨ht, ih⟩

/-- A text that is divided has these words. -/
theorem words (h : Divides cs cs.length i ts) : Words (cs.drop i) (ts.map (·.lexeme)) := by
  induction h with
  | gap hgap =>
    rw [drop_eq_extract_append cs hgap.le]
    refine .gap hgap.gap ?_
    rw [List.drop_length]
    exact .nil
  | word hgap ht _ ih =>
    rw [drop_eq_extract_append cs hgap.le]
    refine .gap hgap.gap ?_
    rw [ht.drop_start]
    exact .word ht.spelled ht.stops ih

theorem right (h : Divides cs j i (ts ++ us)) : Divides cs j (behind i ts) us := by
  induction ts generalizing i with
  | nil => exact h
  | cons t ts ih =>
    cases h with
    | word _ _ hts => exact ih hts

theorem le_behind (h : Divides cs j i (ts ++ us)) : i ≤ behind i ts := by
  induction ts generalizing i with
  | nil => exact Nat.le_refl i
  | cons t ts ih =>
    cases h with
    | word hgap ht hts =>
      have hstop := ht.stop_eq
      have hstart := hgap.le
      have htail : t.stop ≤ behind t.stop ts := ih hts
      rw [behind]
      omega

/-- Words keep to themselves whatever comes behind them, as long as no name goes on there. -/
theorem spells (h : Divides cs j i (ts ++ us)) : Spells (cs.extract i (behind i ts)) (ts.map (·.lexeme)) := by
  induction ts generalizing i with
  | nil =>
    rw [behind, List.extract, Nat.sub_self, List.take_zero]
    exact .nil
  | cons t ts ih =>
    cases h with
    | word hgap ht hts =>
      intro rest ls hrest hls
      have hle := le_behind hts
      have htail := ih hts rest ls hrest hls
      have hstops : Stops t.lexeme.goesOn (cs.extract t.stop (behind t.stop ts) ++ rest) := by
        have hnext := ht.stops
        rw [drop_eq_extract_append cs hle] at hnext
        cases hextract : cs.extract t.stop (behind t.stop ts) with
        | nil => exact t.lexeme.stops_goesOn hrest
        | cons c as =>
          rw [hextract] at hnext
          exact .cons (hnext c rfl)
      have hsplit : cs.extract i (behind t.stop ts) =
          cs.extract i t.start ++ (t.lexeme.text.toList ++ cs.extract t.stop (behind t.stop ts)) := by
        have hstop : t.start ≤ t.stop := by rw [ht.stop_eq]; omega
        have hmarked : cs.extract t.start t.stop = t.lexeme.text.toList := ht.marked
        rw [← hmarked, extract_append_extract cs hstop hle, extract_append_extract cs hgap.le (hstop.trans hle)]
      have hhead : (cs.drop t.start).head? =
          (t.lexeme.text.toList ++ (cs.extract t.stop (behind t.stop ts) ++ rest)).head? := by
        obtain ⟨c, as, htext, -⟩ := chars_of_spelled ht.spelled
        rw [ht.drop_start, htext]
        rfl
      rw [behind, hsplit, List.append_assoc, List.append_assoc]
      exact .gap (hgap.gap.congr hhead) (.word ht.spelled hstops htail)

theorem words_take (h : Divides cs j 0 (ts ++ us)) (hstop : Stops isNamePart rest)
    (hrest : Words rest (us.map (·.lexeme))) : Words (cs.take (behind 0 ts) ++ rest) ((ts ++ us).map (·.lexeme)) := by
  have hextract : cs.extract 0 (behind 0 ts) = cs.take (behind 0 ts) := by simp [List.extract]
  rw [List.map_append, ← hextract]
  exact h.spells rest _ hstop hrest

/-- A text has the same words when blanks and comments are put behind one of them, or at its start or end. -/
theorem words_insert (h : Divides cs cs.length 0 ts) {k : Nat}
    (hk : k = 0 ∨ k = cs.length ∨ ∃ t ∈ ts, k = t.stop) (has : Filler as) :
    Words (cs.take k ++ as ++ cs.drop k) (ts.map (·.lexeme)) := by
  rcases hk with rfl | rfl | ⟨t, ht, rfl⟩
  · have hwords := h.words
    exact .gap (has.gap _) hwords
  · rw [← List.append_nil ts] at h ⊢
    cases h.right with
    | gap hgap =>
      have hdrop : cs.extract (behind 0 ts) cs.length = cs.drop (behind 0 ts) := by
        have := drop_eq_extract_append cs hgap.le
        rwa [List.drop_length, List.append_nil, eq_comm] at this
      have hprolonged := (hdrop ▸ List.drop_length (l := cs) ▸ hgap.gap).filler has
      have hend := Words.gap hprolonged .nil
      rw [List.append_nil] at hend
      have htake := h.words_take hprolonged.stops hend
      rw [← List.append_assoc, List.take_append_drop] at htake
      rwa [List.take_length, List.drop_length, List.append_nil]
  · obtain ⟨before, after, rfl⟩ := List.append_of_mem ht
    rw [List.append_cons] at h ⊢
    have hright := h.right
    have hstop : behind 0 (before ++ [t]) = t.stop := by rw [behind_append]; rfl
    rw [hstop] at hright
    by_cases hne : as = []
    · rw [hne, List.append_nil, List.take_append_drop]
      exact h.words
    · have hgap := has.gap (cs.drop t.stop)
      have htake := h.words_take (hgap.stops.append_of_ne_nil hne) (.gap hgap hright.words)
      rwa [hstop, ← List.append_assoc] at htake

end Divides

/-- A text that can be scanned is divided into its words, each as long as it can be and where its position says, and
into blanks and comments; more of them behind a word, or at the start, change no word. A text that cannot be scanned is
divided in the same way up to the first character with which nothing starts, and this character is reported. -/
theorem Token.scan_divides (text : String) :
    (∃ words, scan text = .ok words ∧ Divides text.toList text.toList.length 0 words.tokens ∧
      words.finish.LiesAt text.toList text.toList.length 1 ∧
      ∀ k, (k = 0 ∨ k = text.toList.length ∨ ∃ t ∈ words.tokens, k = t.stop) → ∀ filler, Filler filler →
        ∃ words', scan (String.ofList (text.toList.take k ++ filler ++ text.toList.drop k)) = .ok words' ∧
          words'.tokens.map (·.lexeme) = words.tokens.map (·.lexeme)) ∨
    ∃ ts c i p, scan text = .error ⟨.unknownToken c, some p, none⟩ ∧ Divides text.toList i 0 ts ∧
      text.toList[i]? = some c ∧ StartsNothing c ∧ p.LiesAt text.toList i 1 := by
  have hscanned := scanned_scan text
  generalize scan text = r at hscanned ⊢
  cases hscanned with
  | ok hts hp =>
    refine .inl ⟨_, rfl, hts, hp, fun k hk filler hfiller => scan_eq_ok.2 ?_⟩
    rw [String.toList_ofList]
    exact hts.words_insert hk hfiller
  | error hts hc hnothing hp => exact .inr ⟨_, _, _, _, rfl, hts, hc, hnothing, hp⟩

end BinRecord
