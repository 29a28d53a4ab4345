import StraightLine.Proofs.Text.Segments
import StraightLine.Proofs.Token.Names

/-! Texts that spell a list of tokens: the tokens' own texts in order, with blanks before, between
and after them. Two tokens need a blank between them only where the second would prolong the
first. Such a text is read as these tokens. -/
namespace StraightLine

open Token (Kind)

namespace Token

/-- The characters that, right behind the text of a token, would be read as part of it. -/
def Kind.prolongedBy : Kind → Char → Bool
  | .integer _ => Char.isDigit
  | .identifier _ | .var => Char.isAlphanum
  | _ => fun _ => false

/-- The text of a token is one piece, and the piece is read as the token. -/
structure IsPiece (k : Kind) (c : Char) (cs : List Char) : Prop where
  lexeme : k.lexeme.toList = c :: cs
  visible : Text.isBlank c = false
  prolongs : Token.prolongs c = k.prolongedBy
  whole : ∀ d ∈ cs, k.prolongedBy d = true
  read : ∀ l, Token.ofPiece c cs l = .ok ⟨k, l⟩

theorem isBlank_of_isAlphanum {c : Char} (h : c.isAlphanum = true) : Text.isBlank c = false := by
  have hc : c.isAlpha = true ∨ c.isDigit = true := Bool.or_eq_true_iff.1 h
  rw [isAlpha_iff_toNat, Char.isDigit_iff_toNat] at hc
  simp only [Char.reduceToNat] at hc
  rw [Bool.eq_false_iff, Ne, Text.isBlank_iff]
  simp only [Text.blankRanges, List.mem_cons, List.not_mem_nil, or_false, exists_eq_or_imp,
    exists_eq_left]
  omega

theorem isPiece_integer {n : Int64} (hn : 0 ≤ n.toInt) :
    ∃ c cs, IsPiece (.integer n) c cs := by
  have htext : (Kind.integer n).lexeme.toList = Nat.toDigits 10 n.toInt.toNat := by
    rw [Kind.lexeme, Int.repr_eq_if, if_pos hn, Nat.toList_repr]
  have hdigits : ∀ d ∈ Nat.toDigits 10 n.toInt.toNat, d.isDigit = true := fun d hd =>
    Nat.isDigit_of_mem_toDigits (b := 10) (by decide) (by decide) hd
  have hvalue := Nat.ofDigitChars_ten_toDigits (n := n.toInt.toNat)
  cases hd : Nat.toDigits 10 n.toInt.toNat with
  | nil => exact absurd hd Nat.toDigits_ne_nil
  | cons c cs =>
    rw [hd, List.forall_mem_cons] at hdigits
    rw [hd] at htext hvalue
    have hlt : n.toInt.toNat < 0x8000000000000000 := by
      have hmax := n.toInt_lt
      omega
    have hn' : Int64.ofNat n.toInt.toNat = n := by
      rw [← Int64.toInt_inj, Int64.toInt_ofNat_of_lt hlt]
      omega
    refine ⟨c, cs, htext, isBlank_of_isAlphanum (by simp [Char.isAlphanum, hdigits.1]), ?_,
      hdigits.2, ?_⟩
    · exact (piece_digit hdigits.1).1
    · intro l
      simp only [(piece_digit hdigits.1).2, ofDigits, hvalue, if_pos hlt, hn']

theorem isPiece_word {x : String} (hx : isName x = true) {k : Kind} (htext : k.lexeme = x)
    (hprolonged : k.prolongedBy = Char.isAlphanum)
    (hkind : (if x = "var" then Kind.var else .identifier x) = k) : ∃ c cs, IsPiece k c cs := by
  unfold isName at hx
  cases hcs : x.toList with
  | nil => simp [hcs] at hx
  | cons c cs =>
    rw [hcs] at hx
    simp only [Bool.and_eq_true, List.all_eq_true] at hx
    have hpiece := piece_letter hx.1
    refine ⟨c, cs, htext ▸ hcs, isBlank_of_isAlphanum (by simp [Char.isAlphanum, hx.1]), ?_, ?_, ?_⟩
    · rw [hpiece.1, hprolonged]
    · rw [hprolonged]
      exact hx.2
    · intro l
      have hname : String.ofList (c :: cs) = x := by rw [← hcs, String.ofList_toList]
      simp only [hpiece.2, ofWord, hname, hkind]

theorem isPiece_sign {k : Kind} {c : Char} (h : k.lexeme.toList = [c])
    (hblank : Text.isBlank c = false) (hword : c.isAlphanum = false)
    (hprolonged : k.prolongedBy = fun _ => false) (hread : ∀ l, ofSign c l = .ok ⟨k, l⟩) :
    ∃ c cs, IsPiece k c cs := by
  have hpiece := piece_other hword
  refine ⟨c, [], h, hblank, ?_, by simp, ?_⟩
  · rw [hpiece.1, hprolonged]
  · intro l
    rw [hpiece.2, hread]

theorem exists_isPiece {k : Kind} (hk : k.isWritable = true) (heof : k ≠ .eof) :
    ∃ c cs, IsPiece k c cs := by
  cases k with
  | integer n => exact isPiece_integer (by simpa [Kind.isWritable] using hk)
  | identifier x =>
    simp only [Kind.isWritable, Bool.and_eq_true, decide_eq_true_eq] at hk
    exact isPiece_word hk.1 rfl rfl (if_neg hk.2)
  | var => exact isPiece_word (x := "var") (by decide) rfl rfl rfl
  | operator op =>
    cases op
    all_goals exact isPiece_sign rfl (by decide) (by decide) rfl fun _ => rfl
  | lparen => exact isPiece_sign rfl (by decide) (by decide) rfl fun _ => rfl
  | rparen => exact isPiece_sign rfl (by decide) (by decide) rfl fun _ => rfl
  | assign => exact isPiece_sign rfl (by decide) (by decide) rfl fun _ => rfl
  | semicolon => exact isPiece_sign rfl (by decide) (by decide) rfl fun _ => rfl
  | eof => exact absurd rfl heof

/-- A text that spells these kinds of tokens. -/
inductive Spells : List Char → List Kind → Prop
  | nil {blanks : List Char} : (∀ c ∈ blanks, Text.isBlank c = true) → Spells blanks []
  | cons {blanks text : List Char} {k : Kind} {ks : List Kind} :
    (∀ c ∈ blanks, Text.isBlank c = true) → k.isWritable = true → k ≠ .eof →
      (∀ c ∈ text.head?, k.prolongedBy c = false) → Spells text ks →
        Spells (blanks ++ k.lexeme.toList ++ text) (k :: ks)

theorem Spells.blank_cons {c : Char} {text : List Char} {ks : List Kind}
    (hc : Text.isBlank c = true) (h : Spells text ks) : Spells (c :: text) ks := by
  cases h with
  | nil hblanks => exact .nil (List.forall_mem_cons.2 ⟨hc, hblanks⟩)
  | cons hblanks hk heof htext h =>
    exact .cons (List.forall_mem_cons.2 ⟨hc, hblanks⟩) hk heof htext h

theorem Spells.ne_eof {text : List Char} {ks : List Kind} (h : Spells text ks) :
    ∀ k ∈ ks, k ≠ .eof := by
  induction h with
  | nil => simp
  | cons _ _ heof _ _ ih => exact List.forall_mem_cons.2 ⟨heof, ih⟩

theorem Kind.prolongedBy_space (k : Kind) : k.prolongedBy ' ' = false := by
  cases k <;> rfl

/-- One space between any two tokens is enough, and text that does not prolong the last of them may
come right behind it. -/
theorem spells_intercalate_append {ks ks' : List Kind} {text : List Char}
    (h : ∀ k ∈ ks, k.isWritable = true ∧ k ≠ .eof)
    (hlast : ∀ k ∈ ks.getLast?, ∀ c ∈ text.head?, k.prolongedBy c = false)
    (htext : Spells text ks') :
    Spells ((" ".intercalate (ks.map Kind.lexeme)).toList ++ text) (ks ++ ks') := by
  induction ks with
  | nil => exact htext
  | cons k ks ih =>
    rw [List.forall_mem_cons] at h
    cases ks with
    | nil =>
      have hspells : Spells ([] ++ k.lexeme.toList ++ text) (k :: ks') :=
        .cons (by simp) h.1.1 h.1.2 (hlast k rfl) htext
      simpa using hspells
    | cons k' ks =>
      have hblank := Spells.blank_cons (c := ' ') (by decide) (ih h.2 hlast)
      have hspells : Spells ([] ++ k.lexeme.toList ++ ' ' :: _) (k :: (k' :: ks ++ ks')) :=
        .cons (by simp) h.1.1 h.1.2 (by simpa using k.prolongedBy_space) hblank
      simpa [String.intercalate_cons_cons] using hspells

theorem spells_intercalate {ks : List Kind}
    (h : ∀ k ∈ ks, k.isWritable = true ∧ k ≠ .eof) :
    Spells (" ".intercalate (ks.map Kind.lexeme)).toList ks := by
  have hnil : Spells [] [] := .nil (by simp)
  have hspells := spells_intercalate_append h (by simp) hnil
  simpa using hspells

end Token

namespace Cursor

open Token

/-- A piece at the front that cannot be prolonged is what is read. -/
theorem next_of_piece {k : Cursor} {c : Char} {cs rest : List Char}
    (hk : k.skipBlanks.rest = c :: (cs ++ rest)) (hcs : ∀ d ∈ cs, prolongs c d = true)
    (hrest : ∀ d ∈ rest.head?, prolongs c d = false) :
    k.next = (ofPiece c cs k.skipBlanks.location,
      ⟨rest, k.skipBlanks.location.advanceAll (c :: cs)⟩) := by
  rw [next_of_skipBlanks_cons hk, Text.takeWhile_append_of_head? hcs hrest,
    Text.dropWhile_append_of_head? hcs hrest]

/-- One token at the front of a text. -/
theorem next_of_isPiece {k : Kind} {blanks : List Char} {c : Char} {cs text : List Char}
    (l : Location) (hpiece : IsPiece k c cs) (hblanks : ∀ c ∈ blanks, Text.isBlank c = true)
    (htext : ∀ c ∈ text.head?, k.prolongedBy c = false) :
    ∃ l' l'', Cursor.next ⟨blanks ++ k.lexeme.toList ++ text, l⟩ =
      (.ok ⟨k, l'⟩, ⟨text, l''⟩) := by
  have hskip : (skipBlanks ⟨blanks ++ k.lexeme.toList ++ text, l⟩).rest = c :: (cs ++ text) := by
    rw [skipBlanks, hpiece.lexeme, List.append_assoc, List.dropWhile_append_of_pos hblanks]
    simp [hpiece.visible]
  rw [← hpiece.prolongs] at htext
  rw [next_of_piece hskip (hpiece.prolongs ▸ hpiece.whole) htext, hpiece.read]
  exact ⟨_, _, rfl⟩

/-- A text is read as the tokens it spells, and the end. -/
theorem tokens_of_spells {text : List Char} {ks : List Kind} (h : Spells text ks) (l : Location) :
    ∃ ts, (Cursor.tokens ⟨text, l⟩).1 = .ok ts ∧ ts.map Token.kind = ks ++ [.eof] := by
  induction h generalizing l with
  | @nil blanks hblanks =>
    have hskip : (skipBlanks ⟨blanks, l⟩).rest = [] := by
      have hdrop : (blanks ++ []).dropWhile Text.isBlank = [] :=
        List.dropWhile_append_of_pos hblanks
      simpa [skipBlanks] using hdrop
    have hnext := next_of_skipBlanks_nil hskip
    refine ⟨[⟨.eof, (skipBlanks ⟨blanks, l⟩).location⟩], ?_, rfl⟩
    rw [tokens, tokensAfter_of_eof (congrArg Prod.fst hnext) rfl]
    rfl
  | @cons blanks text k ks hblanks hk heof htext _ ih =>
    obtain ⟨c, cs, hpiece⟩ := exists_isPiece hk heof
    obtain ⟨l', l'', hnext⟩ := next_of_isPiece l hpiece hblanks htext
    obtain ⟨ts, hts, hkinds⟩ := ih l''
    have ht : Token.isEof ⟨k, l'⟩ = false := by simpa [Token.isEof] using heof
    refine ⟨⟨k, l'⟩ :: ts, ?_, by simp [hkinds]⟩
    rw [tokens_of_token (congrArg Prod.fst hnext) ht, hnext, hts]
    rfl

end Cursor

end StraightLine
