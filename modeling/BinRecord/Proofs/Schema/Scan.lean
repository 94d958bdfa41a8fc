/-
Scanning without places: the words that the characters of a text make up (`Words`), and characters that
make up the same words whatever follows them, as long as no name goes on there (`Spells`). Printed text is
put together from the latter.
-/
import BinRecord.Schema.Token

namespace BinRecord

/-- The words of a text, without their places. -/
inductive Words : List Char → List Lexeme → Prop
  | nil : Words [] []
  | cons {c : Char} {cs : List Char} {piece : Token.Piece} {ls : List Lexeme} : Token.piece? c cs = some piece →
      Words piece.rest ls → Words (c :: cs) (piece.lexeme.toList ++ ls)

/-- Whether a text can be a name. -/
def isName (x : String) : Bool :=
  match x.toList with
  | [] => false
  | c :: cs => Token.isNameStart c && cs.all Token.isNamePart

/-- The characters of a word are such as its kind has. -/
def Lexeme.Proper : Lexeme → Prop
  | name x => isName x = true
  | figures x => x.toList.all Char.isDigit = true
  | mark _ => True

namespace Token

/-! ## The scanner -/

theorem words_of_scanFrom {place : Place} {done : List Token} {cs : List Char} {words : TokenList}
    (h : scanFrom place done cs = .ok words) :
    ∃ ls, Words cs ls ∧ words.tokens.map (·.lexeme) = done.reverse.map (·.lexeme) ++ ls := by
  fun_induction scanFrom place done cs with
  | case1 place done =>
    cases h
    exact ⟨[], .nil, by simp⟩
  | case2 => cases h
  | case3 place done c cs piece hp word ih =>
    obtain ⟨ls, hls, he⟩ := ih h
    refine ⟨_, .cons hp hls, ?_⟩
    rw [he]
    show List.map _ ((Option.map (fun l => (⟨l, _⟩ : Token)) piece.lexeme).toList ++ done).reverse ++ ls = _
    cases piece.lexeme <;> simp

theorem scanFrom_of_words {cs : List Char} {ls : List Lexeme} (h : Words cs ls) (place : Place) (done : List Token) :
    ∃ words, scanFrom place done cs = .ok words ∧
      words.tokens.map (·.lexeme) = done.reverse.map (·.lexeme) ++ ls := by
  induction h generalizing place done with
  | nil => exact ⟨_, by rw [scanFrom], by simp⟩
  | @cons c cs piece ls hp _ ih =>
    obtain ⟨words, hw, he⟩ := ih (place.after piece.taken)
      ((piece.lexeme.map fun l => (⟨l, place.position piece.taken.length⟩ : Token)).toList ++ done)
    refine ⟨words, ?_, ?_⟩
    · rw [scanFrom]
      split
      · rename_i hn
        rw [hp] at hn
        cases hn
      · rename_i piece' hp'
        rw [hp] at hp'
        cases hp'
        exact hw
    · rw [he]
      cases piece.lexeme <;> simp

/-- The scanner finds the words of a text, and fails if it has none. -/
theorem scan_eq_ok {text : String} {ls : List Lexeme} :
    (∃ words, scan text = .ok words ∧ words.tokens.map (·.lexeme) = ls) ↔ Words text.toList ls := by
  constructor
  · rintro ⟨words, hw, rfl⟩
    obtain ⟨ls, hls, he⟩ := words_of_scanFrom hw
    rwa [he]
  · intro h
    exact scanFrom_of_words h {} []

/-! ## Characters -/

theorem isNamePart_of_isNameStart {c : Char} (h : isNameStart c = true) : isNamePart c = true := by
  simp only [isNameStart, isNamePart, Char.isAlphanum, Bool.or_eq_true] at h ⊢
  rcases h with h | h <;> simp [h]

theorem isNamePart_of_isDigit {c : Char} (h : c.isDigit = true) : isNamePart c = true := by
  simp [isNamePart, Char.isAlphanum, h]

theorem not_space_of_isNamePart {c : Char} (h : isNamePart c = true) : isSpace c = false ∧ c ≠ '#' := by
  refine ⟨?_, fun e => by subst e; revert h; decide⟩
  by_cases hs : isSpace c = true
  · simp only [isSpace, Bool.or_eq_true, decide_eq_true_eq] at hs
    rcases hs with ((rfl | rfl) | rfl) | rfl <;> revert h <;> decide
  · simpa using hs

theorem isNamePart_of_isSpace {c : Char} (h : isSpace c = true) : isNamePart c = false := by
  by_cases hp : isNamePart c = true
  · rw [(not_space_of_isNamePart hp).1] at h
    cases h
  · simpa using hp

theorem not_isNameStart_of_isDigit {c : Char} (h : c.isDigit = true) : isNameStart c = false := by
  rw [Char.isDigit_iff_toNat] at h
  have hletter : c.isAlpha =
      (decide ('A'.val ≤ c.val ∧ c.val ≤ 'Z'.val) || ('a'.val ≤ c.val && c.val ≤ 'z'.val)) := rfl
  have hnot : ¬ isNameStart c = true := by
    simp only [isNameStart, hletter, Bool.or_eq_true, Bool.and_eq_true, decide_eq_true_eq,
      UInt32.le_iff_toNat_le]
    rintro ((⟨h₁, -⟩ | ⟨h₁, -⟩) | rfl)
    · exact absurd (Nat.le_trans h₁ h.2) (by decide)
    · exact absurd (Nat.le_trans h₁ h.2) (by decide)
    · exact absurd h.2 (by decide)
  simpa using hnot

/-! ## Names and figures -/

theorem proper_of_piece {c : Char} {cs : List Char} {piece : Piece} {l : Lexeme} (h : piece? c cs = some piece)
    (hl : piece.lexeme = some l) : l.Proper := by
  unfold piece? at h
  split at h
  · cases h; cases hl
  split at h
  · cases h; cases hl
  split at h
  · rename_i hc
    cases h
    cases hl
    simp only [Lexeme.Proper, isName, String.toList_ofList, hc, Bool.true_and]
    exact List.all_takeWhile
  split at h
  · rename_i hc
    cases h
    cases hl
    simp only [Lexeme.Proper, String.toList_ofList, List.all_cons, hc, Bool.true_and]
    exact List.all_takeWhile
  split at h
  · cases h; cases hl; trivial
  · cases h

/-- The names in a text are names, and its figures are digits. -/
theorem proper_of_words {cs : List Char} {ls : List Lexeme} (h : Words cs ls) : ∀ l ∈ ls, l.Proper := by
  induction h with
  | nil => intro l hl; cases hl
  | cons hp _ ih =>
    intro l hl
    rcases List.mem_append.1 hl with hl | hl
    · exact proper_of_piece hp (by simpa using hl)
    · exact ih l hl

end Token

/-! ## One word -/

/-- Characters that do not go on with a run. -/
def Stops (p : Char → Bool) (cs : List Char) : Prop := ∀ c ∈ cs.head?, p c = false

namespace Stops

variable {p : Char → Bool} {as cs : List Char}

theorem nil : Stops p [] := nofun

theorem cons {c : Char} (h : p c = false) : Stops p (c :: cs) := by
  intro d hd
  cases hd
  exact h

theorem append (has : Stops p as) (hcs : Stops p cs) : Stops p (as ++ cs) := by
  cases as with
  | nil => exact hcs
  | cons a as => exact cons (has a rfl)

theorem append_of_ne_nil (has : Stops p as) (hne : as ≠ []) : Stops p (as ++ cs) := by
  cases as with
  | nil => exact absurd rfl hne
  | cons a as => exact cons (has a rfl)

theorem takeWhile_eq (has : ∀ c ∈ as, p c = true) (hcs : Stops p cs) : (as ++ cs).takeWhile p = as := by
  rw [List.takeWhile_append_of_pos has]
  cases cs with
  | nil => simp
  | cons c cs => simp [hcs c rfl]

theorem dropWhile_eq (has : ∀ c ∈ as, p c = true) (hcs : Stops p cs) : (as ++ cs).dropWhile p = cs := by
  rw [List.dropWhile_append_of_pos has]
  cases cs with
  | nil => rfl
  | cons c cs => simp [hcs c rfl]

end Stops

namespace Words

open Token

variable {cs : List Char} {ls : List Lexeme}

/-- A blank before a text changes nothing. -/
theorem blank {c : Char} (hc : isSpace c = true) (h : Words cs ls) : Words (c :: cs) ls := by
  have hblank : ∀ cs', piece? c cs' = some (.run (fun _ => none) isSpace c cs') := fun cs' => by
    unfold piece?; rw [if_pos hc]
  suffices hrest : Words (cs.dropWhile isSpace) ls from .cons (hblank cs) hrest
  -- a run of blanks is one piece, so blanks that start the text are passed together with this one
  cases h with
  | nil => exact .nil
  | @cons d ds piece ls hp hrest =>
    by_cases hd : isSpace d = true
    · have : piece = .run (fun _ => none) isSpace d ds := by
        unfold piece? at hp
        rw [if_pos hd] at hp
        exact (Option.some.inj hp).symm
      subst this
      rw [List.dropWhile_cons_of_pos hd]
      exact hrest
    · rw [List.dropWhile_cons_of_neg hd]
      exact .cons hp hrest

theorem blanks {as : List Char} (has : as.all isSpace = true) (h : Words cs ls) : Words (as ++ cs) ls := by
  induction as with
  | nil => exact h
  | cons a as ih =>
    rw [List.all_cons, Bool.and_eq_true] at has
    exact blank has.1 (ih has.2)

theorem mark {c : Char} (hc : isMark c = true) (h : Words cs ls) : Words (c :: cs) (.mark c :: ls) := by
  have hmarks : "\x7b\x7d:[]<>,;+".toList.all (fun c => isSpace c = false ∧ c ≠ '#' ∧
      isNameStart c = false ∧ c.isDigit = false) = true := by decide +kernel
  have hother := of_decide_eq_true (List.all_eq_true.1 hmarks c (by simpa [isMark] using hc))
  have hpiece : piece? c cs = some ⟨some (.mark c), [c], cs⟩ := by
    unfold piece?
    simp [hother, hc]
  exact .cons hpiece h

theorem name {x : String} (hx : isName x = true) (hcs : Stops isNamePart cs) (h : Words cs ls) :
    Words (x.toList ++ cs) (.name x :: ls) := by
  unfold isName at hx
  split at hx
  · cases hx
  · rename_i c as he
    rw [Bool.and_eq_true, List.all_eq_true] at hx
    have hother := not_space_of_isNamePart (isNamePart_of_isNameStart hx.1)
    have hpiece : piece? c (as ++ cs) = some ⟨some (.name x), c :: as, cs⟩ := by
      unfold piece?
      simp only [hother, hx.1, Piece.run, Stops.takeWhile_eq hx.2 hcs, Stops.dropWhile_eq hx.2 hcs,
        ← he, String.ofList_toList]
      simp
    rw [he]
    exact .cons hpiece h

theorem digits {x : String} (hne : x.toList ≠ []) (hdigits : ∀ c ∈ x.toList, c.isDigit = true)
    (hcs : Stops Char.isDigit cs) (h : Words cs ls) : Words (x.toList ++ cs) (.figures x :: ls) := by
  obtain ⟨c, as, he⟩ := List.exists_cons_of_ne_nil hne
  rw [he, List.forall_mem_cons] at hdigits
  have hother := not_space_of_isNamePart (isNamePart_of_isDigit hdigits.1)
  have hpiece : piece? c (as ++ cs) = some ⟨some (.figures x), c :: as, cs⟩ := by
    unfold piece?
    simp only [hother, not_isNameStart_of_isDigit hdigits.1, hdigits.1, Piece.run, Stops.takeWhile_eq hdigits.2 hcs,
      Stops.dropWhile_eq hdigits.2 hcs, ← he, String.ofList_toList]
    simp
  rw [he]
  exact .cons hpiece h

theorem figures (n : Nat) (hcs : Stops Char.isDigit cs) (h : Words cs ls) :
    Words (n.repr.toList ++ cs) (.figures n.repr :: ls) := by
  refine digits ?_ (fun c hc => ?_) hcs h
  · rw [Nat.toList_repr]
    exact Nat.toDigits_ne_nil
  · rw [Nat.toList_repr] at hc
    exact Nat.isDigit_of_mem_toDigits (by omega) (by omega) hc

/-- A comment changes nothing when a line end or the end of the text stands behind it. -/
theorem comment {body : List Char} (hbody : '\n' ∉ body) (hcs : Stops (· ≠ '\n') cs) (h : Words cs ls) :
    Words ('#' :: (body ++ cs)) ls := by
  have hall : ∀ c ∈ body, decide (c ≠ '\n') = true := fun c hc => by
    simpa using fun hn : c = '\n' => hbody (hn ▸ hc)
  have hpiece : piece? '#' (body ++ cs) = some ⟨none, '#' :: body, cs⟩ := by
    unfold piece?
    rw [if_neg (by decide), if_pos rfl, Piece.run, Stops.takeWhile_eq hall hcs, Stops.dropWhile_eq hall hcs]
  exact .cons hpiece h

end Words

/-! ## Pieces of text -/

/-- Characters that make up the given words whatever stands after them, as long as no name goes on there. -/
def Spells (as : List Char) (ws : List Lexeme) : Prop :=
  ∀ cs ls, Stops Token.isNamePart cs → Words cs ls → Words (as ++ cs) (ws ++ ls)

namespace Spells

open Token

variable {as bs : List Char} {ws vs : List Lexeme}

theorem words (h : Spells as ws) {cs : List Char} (hcs : cs.all isSpace = true)
    (hstop : Stops isNamePart cs) : Words (as ++ cs) ws := by
  have := h cs [] hstop (by simpa using Words.blanks hcs .nil)
  rwa [List.append_nil] at this

theorem nil : Spells [] [] := fun _ _ _ h => h

theorem name {x : String} (hx : isName x = true) : Spells x.toList [.name x] := fun _ _ hcs h =>
  .name hx hcs h

theorem figures (n : Nat) : Spells n.repr.toList [.figures n.repr] := fun _ _ hcs h => by
  refine .figures n (fun c hc => ?_) h
  have hpart := hcs c hc
  by_cases hd : c.isDigit = true
  · rw [isNamePart_of_isDigit hd] at hpart
    cases hpart
  · simpa using hd

theorem mark_append {c : Char} (hc : isMark c = true) (h : Spells as ws) : Spells (c :: as) (.mark c :: ws) :=
  fun cs ls hcs hls => .mark hc (h cs ls hcs hls)

theorem blanks_append (bs : List Char) (hbs : bs.all isSpace = true) (h : Spells as ws) : Spells (bs ++ as) ws :=
  fun cs ls hcs hls => by
    rw [List.append_assoc]
    exact .blanks hbs (h cs ls hcs hls)

theorem append (has : Spells as ws) (hbs : Spells bs vs) (hstop : Stops isNamePart bs) :
    Spells (as ++ bs) (ws ++ vs) := fun cs ls hcs hls => by
  rw [List.append_assoc, List.append_assoc]
  exact has _ _ (hstop.append hcs) (hbs cs ls hcs hls)

theorem name_append {x : String} (hx : isName x = true) (hbs : Spells bs vs) (hstop : Stops isNamePart bs) :
    Spells (x.toList ++ bs) (.name x :: vs) := (name hx).append hbs hstop

/-- Pieces of text with a blank before each. -/
theorem flatMap {α : Type} {text : α → List Char} {words : α → List Lexeme} {b : Char} (hb : isSpace b = true)
    {l : List α} (h : ∀ a ∈ l, Spells (text a) (words a)) :
    Spells (l.flatMap fun a => b :: text a) (l.flatMap words) ∧
      Stops isNamePart (l.flatMap fun a => b :: text a) := by
  have hstop := isNamePart_of_isSpace hb
  induction l with
  | nil => exact ⟨nil, .nil⟩
  | cons a l ih =>
    rw [List.forall_mem_cons] at h
    obtain ⟨ih₁, ih₂⟩ := ih h.2
    rw [List.flatMap_cons, List.flatMap_cons]
    refine ⟨append (blanks_append [b] (by simpa using hb) h.1) ih₁ ih₂, .cons hstop⟩

end Spells

end BinRecord
