import Lox.Proofs.Token.Partition

/-!
# Tokens are cut again as they were

The texts of the tokens of a text, with a space between each two of them, are cut into the same
tokens again, whatever stood between them before (`tokens_spaced`). A token is **firm**: its text is
cut off as the same token wherever a space stands behind it. A space ends names, numbers and
operators, and what stands in a string is closed by its own quote.
-/

namespace Lox

/-! ### Firm pieces -/

section

variable {α : Type} {p : α → Bool} {d : α}

/-- A run that is followed by an element that does not belong to it is found again. -/
theorem takeWhile_takeWhile_append (hd : p d = false) (xs ys : List α) :
    (xs.takeWhile p ++ d :: ys).takeWhile p = xs.takeWhile p := by
  rw [takeWhile_append_cons_of_neg hd, List.takeWhile_idem]

theorem dropWhile_takeWhile_append (hd : p d = false) (xs ys : List α) :
    (xs.takeWhile p ++ d :: ys).dropWhile p = d :: ys := by
  have hnil : (xs.takeWhile p).dropWhile p = [] :=
    List.dropWhile_eq_nil_iff.mpr fun _ hx => List.mem_takeWhile_imp hx
  rw [dropWhile_append_cons_of_neg hd, hnil, List.nil_append]

end

namespace Piece

/-- A piece that is cut off as it is wherever its text stands in front of a space. -/
def Firm (p : Piece) : Prop :=
  ∃ c text, p.text = c :: text ∧ ∀ rest, cut c (text ++ ' ' :: rest) = (p, ' ' :: rest)

/-- The first character of a piece that is a run decides how it is cut. -/
theorem firm_run {p : Char → Bool} (hp : p ' ' = false) {c : Char} {content : List Char → Content}
    (hcut : ∀ rest, cut c rest = run p c rest content) (rest : List Char) :
    (run p c rest content).1.Firm := by
  refine ⟨c, rest.takeWhile p, rfl, fun behind => ?_⟩
  rw [hcut, run, takeWhile_takeWhile_append hp, dropWhile_takeWhile_append hp]
  rfl

/-- A string ends at the first quote. -/
theorem string_closed {inside : List Char} (h : ∀ c ∈ inside, (c != '"' && c != '\n') = true)
    (rest : List Char) : string (inside ++ '"' :: rest) =
      (⟨'"' :: inside ++ ['"'], .token (.string (String.ofList inside))⟩, rest) := by
  have htake : (inside ++ '"' :: rest).takeWhile (fun c => c != '"' && c != '\n') = inside := by
    rw [takeWhile_append_cons_of_neg rfl, List.takeWhile_eq_self_iff.mpr h]
  have hdrop : (inside ++ '"' :: rest).dropWhile (fun c => c != '"' && c != '\n') =
      '"' :: rest := by
    rw [dropWhile_append_cons_of_neg rfl, List.dropWhile_eq_nil_iff.mpr h, List.nil_append]
  unfold string
  rw [htake, hdrop]
  rfl

/-- A string that is closed. -/
theorem firm_string {rest : List Char} {kind : Kind} (hcut : ∀ rest, cut '"' rest = string rest)
    (h : (string rest).1.content = .token kind) : (string rest).1.Firm := by
  have hinside : ∀ c ∈ rest.takeWhile (fun c => c != '"' && c != '\n'),
      (c != '"' && c != '\n') = true := fun _ => List.mem_takeWhile_imp
  unfold string at h ⊢
  generalize rest.takeWhile (fun c => c != '"' && c != '\n') = inside at h hinside ⊢
  dsimp only at h ⊢
  split
  · refine ⟨'"', inside ++ ['"'], rfl, fun behind => ?_⟩
    rw [hcut, List.append_assoc]
    exact string_closed hinside (' ' :: behind)
  · rename_i hopen
    split at h
    · rename_i behind heq
      exact absurd heq (hopen behind)
    · exact nomatch h

/-- Two characters that spell a symbol are no start of a comment. -/
theorem ne_slash_of_ofPair {c d : Char} {s : Symbol} (h : Symbol.ofPair? c d = some s) :
    c ≠ '/' := by
  rintro rfl
  revert h
  unfold Symbol.ofPair?
  split <;> simp_all

/-- A symbol of one or of two characters. -/
theorem firm_mark {c : Char} {rest : List Char} {kind : Kind}
    (hcut : ∀ rest, (c = '/' → rest.head? ≠ some '/' ∧ rest.head? ≠ some '*') →
      cut c rest = mark c rest)
    (h : (mark c rest).1.content = .token kind) : (mark c rest).1.Firm := by
  have hpair : Symbol.ofPair? c ' ' = none := by
    unfold Symbol.ofPair?
    split <;> simp_all
  have hsingle {rest : List Char} (h : (mark.single c rest).1.content = .token kind) :
      (mark.single c rest).1.Firm := by
    unfold mark.single at h ⊢
    cases hs : Symbol.ofChar? c with
    | none => rw [hs] at h; exact nomatch h
    | some s =>
      refine ⟨c, [], rfl, fun behind => ?_⟩
      have hmark : mark c (' ' :: behind) = mark.single c (' ' :: behind) := by
        unfold mark
        dsimp only
        rw [hpair]
      rw [List.nil_append, hcut _ fun _ => ⟨by simp, by simp⟩, hmark, mark.single, hs]
  unfold mark at h ⊢
  split
  · rename_i d rest
    dsimp only at h
    cases hs : Symbol.ofPair? c d with
    | none =>
      rw [hs] at h
      exact hsingle h
    | some s =>
      refine ⟨c, [d], rfl, fun behind => ?_⟩
      rw [hcut _ fun hc => absurd hc (ne_slash_of_ofPair hs), List.singleton_append, mark, hs]
  · exact hsingle h

/-- **All tokens are firm.** -/
theorem firm_cut (c : Char) (rest : List Char) {kind : Kind}
    (h : (cut c rest).1.content = .token kind) : (cut c rest).1.Firm := by
  have hname : continuesName ' ' = false := by decide
  by_cases hblank : Text.isBlank c = true
  · rw [cut, if_pos hblank] at h
    exact nomatch h
  by_cases hquote : c = '"'
  · subst hquote
    have hcut (rest : List Char) : cut '"' rest = string rest := by
      rw [cut, if_neg hblank, if_pos rfl]
    rw [hcut] at h ⊢
    exact firm_string hcut h
  by_cases hdigit : c.isDigit = true
  · have hcut (rest : List Char) : cut c rest =
        run Char.isDigit c rest fun text => .token (.number (Decimal.ofDigits text)) := by
      rw [cut, if_neg hblank, if_neg hquote, if_pos hdigit]
    rw [hcut]
    exact firm_run rfl hcut rest
  by_cases hstart : startsName c = true
  · have hcut (rest : List Char) : cut c rest =
        run continuesName c rest fun text => .token (Kind.ofName text) := by
      rw [cut, if_neg hblank, if_neg hquote, if_neg hdigit, if_pos hstart]
    rw [hcut]
    exact firm_run hname hcut rest
  have hrest (rest : List Char) : cut c rest =
      if c = '/' ∧ rest.head? = some '/' then lineComment rest
      else if c = '/' ∧ rest.head? = some '*' then blockComment rest.tail
      else mark c rest := by
    rw [cut, if_neg hblank, if_neg hquote, if_neg hdigit, if_neg hstart]
  by_cases hline : c = '/' ∧ rest.head? = some '/'
  · rw [hrest, if_pos hline] at h
    exact nomatch h
  by_cases hblock : c = '/' ∧ rest.head? = some '*'
  · rw [hrest, if_neg hline, if_pos hblock, blockComment] at h
    split at h <;> exact nomatch h
  have hmark (rest : List Char) (hslash : c = '/' → rest.head? ≠ some '/' ∧ rest.head? ≠ some '*') :
      cut c rest = mark c rest := by
    rw [hrest, if_neg fun h => (hslash h.1).1 h.2, if_neg fun h => (hslash h.1).2 h.2]
  have hcut : cut c rest = mark c rest :=
    hmark rest fun hc => ⟨fun h => hline ⟨hc, h⟩, fun h => hblock ⟨hc, h⟩⟩
  rw [hcut] at h ⊢
  exact firm_mark hmark h

/-- The space between two tokens. -/
def space : Piece := ⟨[' '], .gap⟩

/-- A firm piece and a space in front of other text. -/
theorem Firm.pieces_append {p : Piece} (h : p.Firm) (rest : List Char) :
    pieces (p.text ++ ' ' :: rest) = p :: .space :: pieces rest := by
  obtain ⟨c, text, htext, hcut⟩ := h
  have hspace : cut ' ' rest = (.space, rest) := if_pos (by decide)
  rw [htext, List.cons_append, pieces_cons, hcut, pieces_cons, hspace]

end Piece

/-! ### Tokens with spaces between them -/

/-- The piece that a token was cut from. -/
def Token.piece (t : Token) : Piece := ⟨t.lexeme.toList, .token t.kind⟩

/-- The tokens of a text but for its end are firm, and stand on one line. -/
theorem firm_of_mem_tokens {source : String} {t : Token} (h : t ∈ tokensWithoutEnd source) :
    t.piece.Firm ∧ '\n' ∉ t.lexeme.toList := by
  obtain ⟨item, hitem, hsome⟩ := List.mem_filterMap.mp h
  cases item with
  | fault e => exact nomatch hsome
  | token t' =>
    obtain rfl : t' = t := Option.some.inj hsome
    obtain ⟨p, hp, hcontent, hlexeme⟩ := Item.exists_piece_of_mem 1 hitem
    obtain ⟨c, rest, rfl⟩ := Piece.exists_cut_of_mem hp
    have hfits := Piece.fits_cut c rest
    rw [Piece.Fits, hcontent] at hfits
    have hpiece : t'.piece = (Piece.cut c rest).1 := by
      rw [Token.piece, hlexeme, String.toList_ofList, ← hcontent]
    rw [hpiece, hlexeme, String.toList_ofList]
    exact ⟨Piece.firm_cut c rest hcontent, hfits.1⟩

namespace Item

/-- A token that stands on one line is an item on that line. -/
theorem ofPiece?_piece (line : Nat) {t : Token} (h : '\n' ∉ t.lexeme.toList) :
    ofPiece? (line + t.piece.text.count '\n') t.piece = some (.token { t with line }) := by
  have hcount : t.piece.text.count '\n' = 0 := List.count_eq_zero.mpr h
  rw [hcount, Nat.add_zero, ofPiece?, Token.piece]
  dsimp only
  rw [String.ofList_toList]

/-- Firm tokens, each with a space behind it, are cut into the same tokens on one line. -/
theorem ofPieces_spaced (line : Nat) {ts : List Token}
    (h : ∀ t ∈ ts, t.piece.Firm ∧ '\n' ∉ t.lexeme.toList) :
    ofPieces line (pieces (ts.flatMap fun t => t.lexeme.toList ++ [' '])) =
      ts.map (fun t => .token { t with line }) ++ [.token ⟨.eof, "", line⟩] := by
  induction ts with
  | nil => rw [List.flatMap_nil, pieces_nil]; rfl
  | cons t ts ih =>
    obtain ⟨⟨hfirm, hline⟩, hrest⟩ := List.forall_mem_cons.mp h
    have hitem := ofPiece?_piece line hline
    have hcount : t.piece.text.count '\n' = 0 := List.count_eq_zero.mpr hline
    have hpieces := hfirm.pieces_append (ts.flatMap fun t => t.lexeme.toList ++ [' '])
    rw [List.flatMap_cons, List.append_assoc, List.singleton_append]
    rw [show t.lexeme.toList = t.piece.text from rfl, hpieces, ofPieces_cons_of_some hitem, hcount,
      Nat.add_zero, ofPieces_cons_of_none rfl]
    exact congrArg (_ :: ·) (ih hrest)

end Item

/-- The texts of the tokens of a text, with a space between each two. -/
def spaced (source : String) : String :=
  " ".intercalate ((tokens source).map Token.lexeme)

/-- Text with a separator between each two of its parts, the last of which is empty. -/
theorem intercalate_append_nil {α : Type} (sep : List α) (xs : List (List α)) :
    sep.intercalate (xs ++ [[]]) = xs.flatMap (· ++ sep) := by
  induction xs with
  | nil => rfl
  | cons x xs ih =>
    have hne : xs ++ [[]] ≠ [] := List.append_ne_nil_of_right_ne_nil _ (List.cons_ne_nil _ _)
    rw [List.cons_append, List.intercalate_cons_of_ne_nil hne, ih, List.flatMap_cons,
      List.append_assoc]

/-- The end of the input has no text, so there is a space behind each of the other tokens. -/
theorem toList_spaced (source : String) : (spaced source).toList =
    (tokensWithoutEnd source).flatMap fun t => t.lexeme.toList ++ [' '] := by
  obtain ⟨eof, -, hlexeme, htokens⟩ := tokens_eq_append source
  rw [spaced, String.toList_intercalate, htokens, List.map_map, List.map_append, List.map_singleton,
    Function.comp_apply, hlexeme]
  exact (intercalate_append_nil _ _).trans (List.flatMap_map ..)

/-- **Tokens are cut again as they were.** The texts of the tokens of a text, the end of the input
among them, are put one behind the other with a space between each two. No fault is found in the new
text, and its tokens have the kinds and the texts of the old ones, and all stand on the first
line. -/
theorem tokens_spaced (source : String) : faults (spaced source) = [] ∧
    tokens (spaced source) = (tokens source).map fun t => { t with line := 1 } := by
  obtain ⟨eof, hkind, hlexeme, htokens⟩ := tokens_eq_append source
  have hitems : scan (spaced source) =
      ((tokens source).map fun t => { t with line := 1 }).map Item.token := by
    rw [scan, toList_spaced, Item.ofPieces_spaced 1 fun _ => firm_of_mem_tokens, htokens,
      List.map_append, List.map_append, List.map_map, List.map_singleton, List.map_singleton, hkind,
      hlexeme]
    rfl
  constructor
  · rw [faults, hitems, List.filterMap_map]
    exact List.filterMap_eq_nil_iff.mpr fun _ _ => rfl
  · rw [tokens, hitems, List.filterMap_map]
    exact List.filterMap_some

end Lox
