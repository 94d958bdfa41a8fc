/-
JSON text is unambiguous: it stands for one datum at most. What a run of characters stands for, and where the run
ends, shows from the characters of the run and the first one behind it.
-/
import BinRecord.Proofs.Json.Grammar

namespace BinRecord

namespace Json

/-! ## Runs of characters -/

variable {w w' r r' : List Char}

/-- What comes does not go on with characters of a kind. -/
def StopsAt (p : Char → Bool) (r : List Char) : Prop := ∀ c ∈ r.head?, p c = false

theorem stopsAt_nil (p : Char → Bool) : StopsAt p [] := by simp [StopsAt]

theorem stopsAt_cons {p : Char → Bool} {c : Char} : StopsAt p (c :: r) ↔ p c = false := by simp [StopsAt]

/-- A run of characters of a kind ends where the characters of that kind do. -/
theorem run_inj {p : Char → Bool} (hw : ∀ c ∈ w, p c = true) (hw' : ∀ c ∈ w', p c = true) (hr : StopsAt p r)
    (hr' : StopsAt p r') (h : w ++ r = w' ++ r') : w = w' ∧ r = r' := by
  induction w generalizing w' with
  | nil =>
    cases w' with
    | nil => exact ⟨rfl, h⟩
    | cons c' w' =>
      rw [List.nil_append] at h
      rw [h, List.cons_append, stopsAt_cons, hw' c' (List.mem_cons_self ..)] at hr
      cases hr
  | cons c w ih =>
    cases w' with
    | nil =>
      rw [List.nil_append] at h
      rw [← h, List.cons_append, stopsAt_cons, hw c (List.mem_cons_self ..)] at hr'
      cases hr'
    | cons c' w' =>
      rw [List.cons_append, List.cons_append, List.cons.injEq] at h
      obtain ⟨rfl, h⟩ := h
      obtain ⟨rfl, rfl⟩ := ih (fun d hd => hw d (List.mem_cons_of_mem _ hd))
        (fun d hd => hw' d (List.mem_cons_of_mem _ hd)) h
      exact ⟨rfl, rfl⟩

/-- Whether a number can have the character in it. -/
def isNumberPart (c : Char) : Bool := c.isDigit || c = '-' || c = '+' || c = '.' || c = 'e' || c = 'E'

theorem IsWhole.digits (h : IsWhole w) : Digits w := by
  cases h with
  | zero => simp [Digits]
  | positive hd _ hds => exact List.forall_mem_cons.2 ⟨hd, hds⟩

theorem IsNumber.parts (h : IsNumber w) : ∀ c ∈ w, isNumberPart c = true := by
  have hdigits {ds : List Char} (hds : Digits ds) : ∀ c ∈ ds, isNumberPart c = true :=
    fun c hc => by simp [isNumberPart, hds c hc]
  obtain ⟨hminus, hwhole, hfraction, hexponent⟩ := h
  simp only [List.forall_mem_append]
  refine ⟨?_, hdigits hwhole.digits, ?_, ?_⟩
  · cases hminus <;> simp [isNumberPart]
  · cases hfraction with
    | none => simp
    | digits hds => exact List.forall_mem_cons.2 ⟨by decide, hdigits hds⟩
  · cases hexponent with
    | none => simp
    | unsigned he hds => exact List.forall_mem_cons.2 ⟨by rcases he with rfl | rfl <;> decide, hdigits hds⟩
    | signed he hsign hds =>
      refine List.forall_mem_cons.2 ⟨by rcases he with rfl | rfl <;> decide, ?_⟩
      exact List.forall_mem_cons.2 ⟨by rcases hsign with rfl | rfl <;> decide, hdigits hds⟩

/-! ## Strings are unambiguous -/

/-- No character has the number of a surrogate. -/
theorem not_surrogate (c : Char) : c.toNat < 0xd800 ∨ 0xdfff < c.toNat := by
  rcases c.valid with h | h
  · exact .inl h
  · exact .inr h.1

/-- What stands for a character tells which one it is and where it ends. -/
theorem Piece.inj {p p' : List Char} {c c' : Char} (hp : Piece p c) (hp' : Piece p' c') (h : p ++ r = p' ++ r') :
    c = c' ∧ r = r' := by
  cases hp with
  | plain _ hquote hback =>
    cases hp' with
    | plain => simpa using h
    | short | unit | pair => simp [hback] at h
  | @short l _ hl =>
    cases hp' with
    | plain _ _ hback => simp [hback.symm] at h
    | short hl' =>
      simp only [List.cons_append, List.nil_append, List.cons.injEq, true_and] at h
      obtain ⟨rfl, rfl⟩ := h
      exact ⟨Option.some.inj (hl.symm.trans hl'), rfl⟩
    | unit | pair =>
      -- the letter of a unit is not that of a short escape
      simp only [List.cons_append, List.cons.injEq, true_and] at h
      rw [h.1] at hl
      cases hl
  | unit hu =>
    cases hp' with
    | plain _ _ hback => simp [hback.symm] at h
    | short hl' =>
      simp only [List.cons_append, List.cons.injEq, true_and] at h
      rw [← h.1] at hl'
      cases hl'
    | unit hu' =>
      simp only [List.cons_append, List.nil_append, List.cons.injEq, true_and] at h
      obtain ⟨rfl, rfl, rfl, rfl, rfl⟩ := h
      rw [hu, Option.some.injEq] at hu'
      exact ⟨Char.toNat_inj.1 hu', rfl⟩
    | @pair _ _ _ _ _ _ _ _ _ high _ hhigh hlt =>
      simp only [List.cons_append, List.nil_append, List.cons.injEq, true_and] at h
      obtain ⟨rfl, rfl, rfl, rfl, -⟩ := h
      -- the first unit of a pair is a surrogate
      rw [hu, Option.some.injEq] at hhigh
      have := not_surrogate c
      omega
  | @pair _ _ _ _ _ _ _ _ _ high low hhigh hlt hlow hlt' hc =>
    cases hp' with
    | plain _ _ hback => simp [hback.symm] at h
    | short hl' =>
      simp only [List.cons_append, List.cons.injEq, true_and] at h
      rw [← h.1] at hl'
      cases hl'
    | unit hu' =>
      simp only [List.cons_append, List.nil_append, List.cons.injEq, true_and] at h
      obtain ⟨rfl, rfl, rfl, rfl, -⟩ := h
      rw [hhigh, Option.some.injEq] at hu'
      have := not_surrogate c'
      omega
    | pair hhigh' _ hlow' _ hc' =>
      simp only [List.cons_append, List.nil_append, List.cons.injEq, true_and] at h
      obtain ⟨rfl, rfl, rfl, rfl, rfl, rfl, rfl, rfl, rfl⟩ := h
      rw [hhigh, Option.some.injEq] at hhigh'
      rw [hlow, Option.some.injEq] at hlow'
      exact ⟨Char.toNat_inj.1 (by omega), rfl⟩

theorem Piece.head_ne {p : List Char} {c : Char} (h : Piece p c) : ∃ d u, p = d :: u ∧ d ≠ '"' := by
  cases h with
  | plain _ hquote => exact ⟨_, _, rfl, hquote⟩
  | short | unit | pair => exact ⟨_, _, rfl, by decide⟩

/-- The quote behind a string tells where it ends. -/
theorem Inside.inj {cs cs' : List Char} (hw : Inside w cs) (hw' : Inside w' cs') (h : w ++ '"' :: r = w' ++ '"' :: r') :
    cs = cs' ∧ r = r' := by
  induction hw generalizing w' cs' with
  | nil =>
    cases hw' with
    | nil => simpa using h
    | cons hp' =>
      obtain ⟨d, u, rfl, hd⟩ := hp'.head_ne
      simp [hd.symm] at h
  | cons hp _ ih =>
    cases hw' with
    | nil =>
      obtain ⟨d, u, rfl, hd⟩ := hp.head_ne
      simp [hd] at h
    | cons hp' hw' =>
      rw [List.append_assoc, List.append_assoc] at h
      obtain ⟨rfl, htail⟩ := hp.inj hp' h
      obtain ⟨rfl, hr⟩ := ih hw' htail
      exact ⟨rfl, hr⟩

theorem IsString.inj {s s' : String} (hw : IsString w s) (hw' : IsString w' s') (h : w ++ r = w' ++ r') :
    s = s' ∧ r = r' := by
  obtain ⟨hin⟩ := hw
  obtain ⟨hin'⟩ := hw'
  simp only [List.cons_append, List.append_assoc, List.nil_append, List.cons.injEq, true_and] at h
  obtain ⟨hs, hr⟩ := hin.inj hin' h
  exact ⟨String.toList_injective hs, hr⟩

/-! ## Values are unambiguous -/

/-- Whether the text of a datum can start with the character. -/
def Datum.startsWith : Datum → Char → Bool
  | null, c => c = 'n'
  | bool true, c => c = 't'
  | bool false, c => c = 'f'
  | number _, c => c = '-' || c.isDigit
  | text _, c => c = '"'
  | array _, c => c = '['
  | object _, c => c = '{'

theorem IsNumber.head (h : IsNumber w) : ∃ c u, w = c :: u ∧ (c = '-' ∨ c.isDigit = true) := by
  obtain ⟨hminus, hwhole, -, -⟩ := h
  cases hminus with
  | minus => exact ⟨_, _, rfl, .inl rfl⟩
  | none =>
    cases hwhole with
    | zero => exact ⟨_, _, rfl, .inr (by decide)⟩
    | positive hd => exact ⟨_, _, rfl, .inr hd⟩

theorem IsValue.head {j : Datum} (h : IsValue w j) : ∃ c u, w = c :: u ∧ j.startsWith c = true := by
  cases h with
  | number hw =>
    obtain ⟨c, u, rfl, hc⟩ := hw.head
    exact ⟨c, u, rfl, by simpa [Datum.startsWith] using hc⟩
  | text hw => cases hw; exact ⟨_, _, rfl, rfl⟩
  | array hw | object hw => cases hw <;> exact ⟨_, _, rfl, rfl⟩
  | null | isTrue | isFalse => exact ⟨_, _, rfl, rfl⟩

theorem Datum.not_blank {j : Datum} {c : Char} (h : j.startsWith c = true) : isBlank c = false := by
  rw [Bool.eq_false_iff]
  intro hc
  simp only [isBlank, Bool.or_eq_true, decide_eq_true_eq] at hc
  rcases hc with ((rfl | rfl) | rfl) | rfl <;> rcases j with _ | (_ | _) | _ | _ | _ | _ <;>
    simp [startsWith] at h

/-- What comes ends a value: it does not go on with a number. -/
def EndsValue (r : List Char) : Prop := StopsAt isNumberPart r

/-- What comes ends a value with the blanks around it. -/
def EndsElement (r : List Char) : Prop := StopsAt isBlank r ∧ EndsValue r

/-- What stands for `a` stands for nothing else, and where it ends is sure if what comes ends it. -/
def Determined {α : Type} (P : List Char → α → Prop) (Ends : List Char → Prop) (a : α) : Prop :=
  ∀ ⦃w w' r r' : List Char⦄ ⦃a' : α⦄, P w a → P w' a' → Ends r → Ends r' → w ++ r = w' ++ r' → a = a' ∧ r = r'

theorem Blanks.endsValue {b : List Char} (hb : Blanks b) (h : EndsValue r) : EndsValue (b ++ r) := by
  cases b with
  | nil => exact h
  | cons c b =>
    have hc := hb c (List.mem_cons_self ..)
    simp only [isBlank, Bool.or_eq_true, decide_eq_true_eq] at hc
    rcases hc with ((rfl | rfl) | rfl) | rfl <;> simp [EndsValue, StopsAt, isNumberPart]

theorem IsValue.stopsAt {j : Datum} (h : IsValue w j) : StopsAt isBlank (w ++ r) := by
  obtain ⟨c, u, rfl, hc⟩ := h.head
  exact stopsAt_cons.2 (Datum.not_blank hc)

theorem IsString.stopsAt {s : String} (h : IsString w s) : StopsAt isBlank (w ++ r) := IsValue.stopsAt (.text h)

theorem element_determined {j : Datum} (hj : Determined IsValue EndsValue j) : Determined IsElement EndsElement j := by
  rintro _ _ r r' j' ⟨ha, hw, hb⟩ ⟨ha', hw', hb'⟩ hr hr' h
  simp only [List.append_assoc] at h
  obtain ⟨-, hvalue⟩ := run_inj ha ha' hw.stopsAt hw'.stopsAt h
  obtain ⟨rfl, hblanks⟩ := hj hw hw' (hb.endsValue hr.2) (hb'.endsValue hr'.2) hvalue
  exact ⟨rfl, (run_inj hb hb' hr.1 hr'.1 hblanks).2⟩

theorem member_determined {m : String × Datum} (hm : Determined IsValue EndsValue m.2) :
    Determined IsMember EndsElement m := by
  rintro _ _ r r' m' ⟨ha, hk, hb, hw⟩ ⟨ha', hk', hb', hw'⟩ hr hr' h
  simp only [List.append_assoc, List.cons_append] at h
  obtain ⟨-, hkey⟩ := run_inj ha ha' hk.stopsAt hk'.stopsAt h
  obtain ⟨rfl, hcolon⟩ := hk.inj hk' hkey
  obtain ⟨-, hvalue⟩ := run_inj hb hb' (stopsAt_cons.2 (by decide)) (stopsAt_cons.2 (by decide)) hcolon
  obtain ⟨rfl, hrest⟩ := element_determined hm hw hw' hr hr' (List.cons.inj hvalue).2
  exact ⟨rfl, hrest⟩

/-- The bracket behind things with commas between them tells where they end. -/
theorem Separated.inj {α : Type} {P : List Char → α → Prop} {as as' : List α} {close : Char}
    (hP : ∀ a ∈ as, Determined P EndsElement a) (hblank : isBlank close = false) (hpart : isNumberPart close = false)
    (hcomma : close ≠ ',') (hw : Separated P w as) (hw' : Separated P w' as')
    (h : w ++ close :: r = w' ++ close :: r') : as = as' ∧ r = r' := by
  have hclose (u : List Char) : EndsElement (close :: u) := ⟨stopsAt_cons.2 hblank, stopsAt_cons.2 hpart⟩
  have hnext (u : List Char) : EndsElement (',' :: u) := ⟨stopsAt_cons.2 (by decide), stopsAt_cons.2 (by decide)⟩
  -- behind the first thing a comma tells that there are more, and the bracket that there are none
  induction hw generalizing w' as' with
  | one hone =>
    have hdet := hP _ (List.mem_cons_self ..)
    cases hw' with
    | one hone' =>
      obtain ⟨rfl, hr⟩ := hdet hone hone' (hclose r) (hclose r') h
      exact ⟨rfl, (List.cons.inj hr).2⟩
    | cons hone' =>
      rw [List.append_assoc, List.cons_append] at h
      obtain ⟨-, hr⟩ := hdet hone hone' (hclose r) (hnext _) h
      exact absurd (List.cons.inj hr).1 hcomma
  | cons hone hmore ih =>
    have hdet := hP _ (List.mem_cons_self ..)
    rw [List.append_assoc, List.cons_append] at h
    cases hw' with
    | one hone' =>
      obtain ⟨-, hr⟩ := hdet hone hone' (hnext _) (hclose r') h
      exact absurd (List.cons.inj hr).1.symm hcomma
    | cons hone' hmore' =>
      rw [List.append_assoc, List.cons_append] at h
      obtain ⟨rfl, hr⟩ := hdet hone hone' (hnext _) (hnext _) h
      obtain ⟨rfl, hrest⟩ := ih (fun a ha => hP a (List.mem_cons_of_mem _ ha)) hmore' (List.cons.inj hr).2
      exact ⟨rfl, hrest⟩

/-- Behind blanks there is a character other than a given one. -/
def Opens (close : Char) (w : List Char) : Prop := ∃ a c u, w = a ++ c :: u ∧ Blanks a ∧ isBlank c = false ∧ c ≠ close

theorem IsElement.opens {j : Datum} (h : IsElement w j) : Opens ']' w := by
  obtain ⟨ha, hw, -⟩ := h
  obtain ⟨c, u, rfl, hc⟩ := hw.head
  refine ⟨_, c, _, rfl, ha, Datum.not_blank hc, ?_⟩
  rintro rfl
  rcases j with _ | (_ | _) | _ | _ | _ | _ <;> simp [Datum.startsWith] at hc

theorem IsMember.opens {m : String × Datum} (h : IsMember w m) : Opens '}' w := by
  obtain ⟨ha, ⟨hk⟩, -, -⟩ := h
  exact ⟨_, '"', _, rfl, ha, by decide, by decide⟩

theorem Separated.opens {α : Type} {P : List Char → α → Prop} {as : List α} {close : Char} (hw : Separated P w as)
    (hP : ∀ {v : List Char} {a : α}, P v a → Opens close v) : Opens close w := by
  cases hw with
  | one hone => exact hP hone
  | cons hone =>
    obtain ⟨a, c, u, rfl, ha, hblank, hc⟩ := hP hone
    exact ⟨a, c, _, List.append_assoc .., ha, hblank, hc⟩

theorem Opens.ne_blanks {close : Char} {b : List Char} (hw : Opens close w) (hclose : isBlank close = false)
    (hb : Blanks b) : b ++ close :: r ≠ w ++ r' := by
  obtain ⟨a, c, u, rfl, ha, hblank, hc⟩ := hw
  intro h
  rw [List.append_assoc] at h
  obtain ⟨-, hr⟩ := run_inj hb ha (stopsAt_cons.2 hclose) (stopsAt_cons.2 hblank) h
  exact hc (List.cons.inj hr).1.symm

theorem Bracketed.inj {α : Type} {P : List Char → α → Prop} {as as' : List α} {opening closing : Char}
    (hP : ∀ a ∈ as, Determined P EndsElement a) (hopens : ∀ {v : List Char} {a : α}, P v a → Opens closing v)
    (hblank : isBlank closing = false) (hpart : isNumberPart closing = false) (hcomma : closing ≠ ',')
    (hw : Bracketed opening closing P w as) (hw' : Bracketed opening closing P w' as') (h : w ++ r = w' ++ r') :
    as = as' ∧ r = r' := by
  cases hw with
  | blanks ha =>
    cases hw' with
    | blanks ha' =>
      simp only [List.cons_append, List.append_assoc, List.nil_append, List.cons.injEq, true_and] at h
      obtain ⟨-, hr⟩ := run_inj ha ha' (stopsAt_cons.2 hblank) (stopsAt_cons.2 hblank) h
      exact ⟨rfl, (List.cons.inj hr).2⟩
    | things hmore' =>
      simp only [List.cons_append, List.append_assoc, List.nil_append, List.cons.injEq, true_and] at h
      exact absurd h ((hmore'.opens hopens).ne_blanks hblank ha)
  | things hmore =>
    cases hw' with
    | blanks ha' =>
      simp only [List.cons_append, List.append_assoc, List.nil_append, List.cons.injEq, true_and] at h
      exact absurd h.symm ((hmore.opens hopens).ne_blanks hblank ha')
    | things hmore' =>
      simp only [List.cons_append, List.append_assoc, List.nil_append, List.cons.injEq, true_and] at h
      exact hmore.inj hP hblank hpart hcomma hmore' h

/-- Data whose texts start alike: all but their parts is the same. -/
inductive Datum.Alike : Datum → Datum → Prop
  | null : Alike null null
  | bool (b : Bool) : Alike (bool b) (bool b)
  | number (l l' : List Char) : Alike (number l) (number l')
  | text (s s' : String) : Alike (text s) (text s')
  | array (js js' : List Datum) : Alike (array js) (array js')
  | object (ms ms' : List (String × Datum)) : Alike (object ms) (object ms')

theorem Datum.Alike.of_startsWith {j j' : Datum} {c : Char} (h : j.startsWith c = true) (h' : j'.startsWith c = true) :
    j.Alike j' := by
  rcases j with _ | (_ | _) | l | s | js | ms <;> rcases j' with _ | (_ | _) | l' | s' | js' | ms' <;>
    first | constructor | (exfalso; simp_all [startsWith])

theorem IsValue.alike {j j' : Datum} (hw : IsValue w j) (hw' : IsValue w' j') (h : w ++ r = w' ++ r') :
    j.Alike j' := by
  obtain ⟨c, u, rfl, hc⟩ := hw.head
  obtain ⟨c', u', rfl, hc'⟩ := hw'.head
  obtain rfl : c = c' := (List.cons.inj h).1
  exact .of_startsWith hc hc'

theorem null_determined : Determined IsValue EndsValue .null := by
  intro w w' r r' j' hw hw' _ _ h
  cases hw.alike hw' h
  cases hw
  cases hw'
  exact ⟨rfl, List.append_cancel_left h⟩

theorem bool_determined (b : Bool) : Determined IsValue EndsValue (.bool b) := by
  intro w w' r r' j' hw hw' _ _ h
  cases hw.alike hw' h
  cases hw <;> cases hw' <;> exact ⟨rfl, List.append_cancel_left h⟩

theorem number_determined (l : List Char) : Determined IsValue EndsValue (.number l) := by
  intro w w' r r' j' hw hw' hr hr' h
  cases hw.alike hw' h
  obtain _ | _ | _ | hl := hw
  obtain _ | _ | _ | hl' := hw'
  obtain ⟨rfl, hrest⟩ := run_inj hl.parts hl'.parts hr hr' h
  exact ⟨rfl, hrest⟩

theorem text_determined (s : String) : Determined IsValue EndsValue (.text s) := by
  intro w w' r r' j' hw hw' _ _ h
  cases hw.alike hw' h
  obtain _ | _ | _ | _ | hs := hw
  obtain _ | _ | _ | _ | hs' := hw'
  obtain ⟨rfl, hrest⟩ := hs.inj hs' h
  exact ⟨rfl, hrest⟩

theorem array_determined {js : List Datum} (hjs : ∀ j ∈ js, Determined IsValue EndsValue j) :
    Determined IsValue EndsValue (.array js) := by
  intro w w' r r' j' hw hw' _ _ h
  cases hw.alike hw' h
  obtain _ | _ | _ | _ | _ | hitems := hw
  obtain _ | _ | _ | _ | _ | hitems' := hw'
  obtain ⟨rfl, hrest⟩ := hitems.inj (fun j hj => element_determined (hjs j hj)) IsElement.opens (by decide) (by decide)
    (by decide) hitems' h
  exact ⟨rfl, hrest⟩

theorem object_determined {ms : List (String × Datum)} (hms : ∀ m ∈ ms, Determined IsValue EndsValue m.2) :
    Determined IsValue EndsValue (.object ms) := by
  intro w w' r r' j' hw hw' _ _ h
  cases hw.alike hw' h
  obtain _ | _ | _ | _ | _ | _ | hmembers := hw
  obtain _ | _ | _ | _ | _ | _ | hmembers' := hw'
  obtain ⟨rfl, hrest⟩ := hmembers.inj (fun m hm => member_determined (hms m hm)) IsMember.opens (by decide) (by decide)
    (by decide) hmembers' h
  exact ⟨rfl, hrest⟩

/-- What stands for a datum stands for it alone. -/
theorem Datum.determined : ∀ j : Datum, Determined IsValue EndsValue j
  | null => null_determined
  | bool b => bool_determined b
  | number l => number_determined l
  | text s => text_determined s
  | array js => array_determined fun j _hj => determined j
  | object ms => object_determined fun m _hm => determined m.2
termination_by j => sizeOf j
decreasing_by
  · have := List.sizeOf_lt_of_mem _hj
    simp only [array.sizeOf_spec]
    omega
  · have := List.sizeOf_lt_of_mem _hm
    obtain ⟨s, j⟩ := m
    simp only [Prod.mk.sizeOf_spec, object.sizeOf_spec] at this ⊢
    omega

/-- A text stands for one datum at most. -/
theorem IsText.unique {text : List Char} {j j' : Datum} (h : IsText text j) (h' : IsText text j') : j = j' := by
  have hnil : EndsElement [] := ⟨stopsAt_nil _, stopsAt_nil _⟩
  exact (element_determined j.determined h h' hnil hnil rfl).1

end Json

end BinRecord
