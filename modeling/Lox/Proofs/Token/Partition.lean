import Lox.Proofs.Token.Cut

/-!
# The scanner partitions its input

A `Scanner` hands out the items of a text one call after another, and remembers for each the bytes
it was cut from. For every text there are finitely many items and nothing behind them, and the end
of the input is the last of them and stands nowhere else. The other items have spans that are not
empty, one behind the other, and between the spans there is only white space and comments
(`Scanner.partitions`).
-/

namespace Lox

/-- How many bytes characters take up. -/
def byteSize (text : List Char) : Nat :=
  (String.ofList text).utf8ByteSize

theorem byteSize_append (text rest : List Char) :
    byteSize (text ++ rest) = byteSize text + byteSize rest := by
  rw [byteSize, String.ofList_append, String.utf8ByteSize_append]
  rfl

theorem byteSize_pos {text : List Char} (h : text ≠ []) : 0 < byteSize text := by
  refine Nat.pos_of_ne_zero fun hzero => h ?_
  have hempty : String.ofList text = "" := String.utf8ByteSize_eq_zero_iff.mp hzero
  simpa using congrArg String.toList hempty

/-- A range of bytes of a text. -/
structure Span where
  /-- The first byte. -/
  start : Nat
  /-- The byte behind the last one. -/
  stop : Nat
deriving DecidableEq, Repr

/-! ### The item of a piece -/

namespace Item

variable {line : Nat} {p : Piece}

theorem ofPieces_cons_of_some {item : Item} (h : ofPiece? (line + p.text.count '\n') p = some item)
    (ps : List Piece) :
    ofPieces line (p :: ps) = item :: ofPieces (line + p.text.count '\n') ps := by
  rw [ofPieces, h]

theorem ofPieces_cons_of_none (h : ofPiece? (line + p.text.count '\n') p = none)
    (ps : List Piece) : ofPieces line (p :: ps) = ofPieces (line + p.text.count '\n') ps := by
  rw [ofPieces, h]

theorem content_of_ofPiece?_eq_none (h : ofPiece? line p = none) : p.content = .gap := by
  unfold ofPiece? at h
  split at h
  · assumption
  · exact absurd h (by simp)
  · exact absurd h (by simp)

end Item

/-! ### The scanner -/

/-- A scanner on its way through a text. -/
structure Scanner where
  /-- The text that was not read yet. -/
  rest : List Char
  /-- The byte where the last piece starts. -/
  start : Nat := 0
  /-- The byte where reading goes on. -/
  curr : Nat := 0
  /-- The line where reading goes on. -/
  line : Nat := 1
  /-- Whether the end of the input was handed out. -/
  ended : Bool := false

namespace Scanner

/-- A scanner at the start of a text. -/
def ofText (source : String) : Scanner :=
  { rest := source.toList }

/-- The bytes of the last item. -/
def span (s : Scanner) : Span :=
  ⟨s.start, s.curr⟩

/-- The scanner behind a piece. -/
def behind (s : Scanner) (piece : Piece) (rest : List Char) : Scanner where
  rest := rest
  start := s.curr
  curr := s.curr + byteSize piece.text
  line := s.line + piece.text.count '\n'
  ended := s.ended

/-- The next item, if there is one, and the scanner behind it. Gaps are passed over, and the end of
the input is handed out once. -/
def next (s : Scanner) : Option Item × Scanner :=
  match _h : s.rest with
  | [] =>
    if s.ended then (none, s)
    else (some (.token ⟨.eof, "", s.line⟩), { s with ended := true })
  | c :: rest =>
    let s' := s.behind (Piece.cut c rest).1 (Piece.cut c rest).2
    match Item.ofPiece? s'.line (Piece.cut c rest).1 with
    | some item => (some item, s')
    | none => s'.next
termination_by s.rest.length
decreasing_by
  have hlt := Piece.length_cut_lt c rest
  rwa [← _h] at hlt

/-- The scanner after some calls. -/
def after (s : Scanner) : Nat → Scanner
  | 0 => s
  | n + 1 => s.next.2.after n

/-- What the call after `n` other calls hands out. -/
def item? (s : Scanner) (n : Nat) : Option Item :=
  (s.after n).next.1

/-- A scanner that read all of a text except `rest`. -/
structure Stands (s : Scanner) (before rest : List Char) : Prop where
  /-- What is left to read. -/
  rest : s.rest = rest
  /-- The byte is that behind the text that was read. -/
  curr : s.curr = byteSize before
  /-- The line is counted from one. -/
  line : s.line = 1 + before.count '\n'
  /-- The end of the input is still to come. -/
  ended : s.ended = false

end Scanner

/-! ### What the items say -/

/-- What an item says about the text it was cut from: a token has it as its lexeme, and everything
but a comment that is never closed is reported on the line where the text starts. -/
def Item.Describes (source before text : List Char) : Item → Prop
  | token t => t.lexeme = String.ofList text ∧ t.kind.Spells text ∧ t.line = 1 + before.count '\n'
  | fault ⟨line, .openComment⟩ => line = 1 + source.count '\n'
  | fault ⟨line, _⟩ => line = 1 + before.count '\n'

/-- The text behind `before` is `rest`, and this is made of gaps and of the texts of the items,
which have these spans. -/
inductive Tiled (source : List Char) : List Char → List Char → List (Item × Span) → Prop where
  /-- No item is left. -/
  | last {before gap : List Char} (hgap : Skipped gap []) : Tiled source before gap []
  /-- A gap, an item and what stands behind it. -/
  | item {before gap text rest : List Char} {item : Item} {span : Span}
      {found : List (Item × Span)} (hgap : Skipped gap (text ++ rest)) (htext : text ≠ [])
      (hstart : span.start = byteSize (before ++ gap))
      (hstop : span.stop = byteSize (before ++ gap ++ text))
      (hitem : item.Describes source (before ++ gap) text)
      (hfound : Tiled source (before ++ gap ++ text) rest found) :
      Tiled source before (gap ++ text ++ rest) ((item, span) :: found)

namespace Tiled

variable {source before rest : List Char} {found : List (Item × Span)}

/-- All spans lie behind the text before them. -/
theorem le_start (h : Tiled source before rest found) :
    ∀ entry ∈ found, byteSize before ≤ entry.2.start := by
  induction h with
  | last hgap => exact List.forall_mem_nil _
  | item hgap htext hstart hstop hitem hfound ih =>
    refine List.forall_mem_cons.mpr ⟨?_, fun entry hentry => ?_⟩
    · rw [hstart, byteSize_append]
      exact Nat.le_add_right _ _
    · have hle := ih entry hentry
      rw [byteSize_append, byteSize_append] at hle
      omega

theorem start_lt_stop (h : Tiled source before rest found) :
    ∀ entry ∈ found, entry.2.start < entry.2.stop := by
  induction h with
  | last hgap => exact List.forall_mem_nil _
  | @item before gap text _ _ _ _ hgap htext hstart hstop hitem hfound ih =>
    refine List.forall_mem_cons.mpr ⟨?_, ih⟩
    rw [hstart, hstop, byteSize_append (before ++ gap) text]
    exact Nat.lt_add_of_pos_right (byteSize_pos htext)

theorem pairwise_stop_le_start (h : Tiled source before rest found) :
    found.Pairwise fun a b => a.2.stop ≤ b.2.start := by
  induction h with
  | last hgap => exact .nil
  | item hgap htext hstart hstop hitem hfound ih =>
    refine .cons (fun entry hentry => ?_) ih
    rw [hstop]
    exact hfound.le_start entry hentry

theorem spells (h : Tiled source before rest found) :
    ∀ entry ∈ found, ∀ t, entry.1 = .token t → t.kind.Spells t.lexeme.toList := by
  induction h with
  | last hgap => exact List.forall_mem_nil _
  | item hgap htext hstart hstop hitem hfound ih =>
    refine List.forall_mem_cons.mpr ⟨?_, ih⟩
    rintro t rfl
    rw [hitem.1, String.toList_ofList]
    exact hitem.2.1

theorem kind_ne_eof (h : Tiled source before rest found) :
    ∀ entry ∈ found, ∀ t, entry.1 = .token t → t.kind ≠ .eof := by
  intro entry hentry t ht heof
  have hspells := h.spells entry hentry t ht
  rw [heof] at hspells
  exact hspells

end Tiled

/-! ### One call -/

namespace Scanner

variable {s : Scanner} {before rest : List Char}

theorem Stands.behind (h : s.Stands before rest) (piece : Piece) (rest' : List Char) :
    (s.behind piece rest').Stands (before ++ piece.text) rest' where
  rest := rfl
  curr := by rw [Scanner.behind, h.curr, byteSize_append]
  line := by rw [Scanner.behind, h.line, List.count_append, Nat.add_assoc]
  ended := h.ended

/-- The items that a scanner is still to hand out. -/
def items (s : Scanner) : List Item :=
  Item.ofPieces s.line (pieces s.rest)

/-- What a piece that is a token or a fault says about its text. -/
theorem describes_of_ofPiece {piece : Piece} {item : Item} {line : Nat} (hfits : piece.Fits rest)
    (hline : line = 1 + before.count '\n' + piece.text.count '\n')
    (hitem : Item.ofPiece? line piece = some item) :
    item.Describes (before ++ piece.text ++ rest) before piece.text := by
  have hcount (h : '\n' ∉ piece.text) : line = 1 + before.count '\n' := by
    rw [hline, List.count_eq_zero.mpr h, Nat.add_zero]
  unfold Item.ofPiece? at hitem
  unfold Piece.Fits at hfits
  split at hitem
  · exact absurd hitem (by simp)
  · rename_i kind hkind
    rw [hkind] at hfits
    obtain rfl := Option.some.inj hitem
    exact ⟨rfl, hfits.2, hcount hfits.1⟩
  · rename_i cause hcause
    rw [hcause] at hfits
    obtain rfl := Option.some.inj hitem
    cases cause with
    | openComment =>
      obtain rfl : rest = [] := hfits
      rw [Item.Describes, hline, List.append_nil, List.count_append, Nat.add_assoc]
    | unexpected c => exact hcount hfits
    | openString => exact hcount hfits

theorem next_nil (h : s.rest = []) : s.next = if s.ended then (none, s)
    else (some (.token ⟨.eof, "", s.line⟩), { s with ended := true }) := by
  rw [next]
  split
  · rfl
  · rename_i heq
    rw [h] at heq
    exact absurd heq (by simp)

theorem next_cons {c : Char} {rest : List Char} (h : s.rest = c :: rest) : s.next =
    match Item.ofPiece? (s.behind (Piece.cut c rest).1 (Piece.cut c rest).2).line
      (Piece.cut c rest).1 with
    | some item => (some item, s.behind (Piece.cut c rest).1 (Piece.cut c rest).2)
    | none => (s.behind (Piece.cut c rest).1 (Piece.cut c rest).2).next := by
  rw [next]
  split
  · rename_i heq
    rw [h] at heq
    exact absurd heq (by simp)
  · rename_i heq
    rw [h] at heq
    obtain ⟨rfl, rfl⟩ := List.cons.inj heq
    rfl

/-- What one call of a scanner that is not at its end does. -/
inductive Step (s : Scanner) (before rest : List Char) : Prop where
  /-- Only a gap is left, and the end of the input is handed out. -/
  | last (s' : Scanner)
      (hnext : s.next = (some (.token ⟨.eof, "", 1 + (before ++ rest).count '\n'⟩), s'))
      (hgap : Skipped rest []) (hend : s'.next = (none, s'))
      (hitems : s.items = [.token ⟨.eof, "", 1 + (before ++ rest).count '\n'⟩])
  /-- A gap is passed over and an item is handed out. -/
  | item (s' : Scanner) (gap text rest' : List Char) (item : Item)
      (hrest : rest = gap ++ text ++ rest') (hnext : s.next = (some item, s'))
      (hgap : Skipped gap (text ++ rest')) (htext : text ≠ [])
      (hstart : s'.start = byteSize (before ++ gap))
      (hstands : s'.Stands (before ++ gap ++ text) rest')
      (hitem : item.Describes (before ++ rest) (before ++ gap) text)
      (hitems : s.items = item :: s'.items)

/-- A piece that stands for no item is a gap, and is passed over. -/
theorem Step.of_gap {s' : Scanner} {text : List Char}
    (hgap : ∀ gap rest', rest = gap ++ rest' → Skipped gap rest' → Skipped (text ++ gap) rest')
    (hnext : s.next = s'.next) (hitems : s.items = s'.items)
    (h : s'.Step (before ++ text) rest) : s.Step before (text ++ rest) := by
  cases h with
  | last s'' hnext' hgap' hend hitems' =>
    rw [List.append_assoc] at hnext' hitems'
    refine .last s'' (hnext.trans hnext') ?_ hend (hitems.trans hitems')
    simpa using hgap rest [] (List.append_nil rest).symm hgap'
  | item s'' gap itemText rest' item hrest hnext' hgap' htext hstart hstands hitem hitems' =>
    rw [List.append_assoc before text] at hstart hstands hitem
    rw [List.append_assoc before text] at hitem
    refine .item s'' (text ++ gap) itemText rest' item ?_ (hnext.trans hnext') ?_ htext hstart
      hstands hitem (hitems.trans hitems')
    · rw [hrest]
      simp only [List.append_assoc]
    · exact hgap gap (itemText ++ rest') (by rw [hrest, List.append_assoc]) hgap'

/-- **One call**: a gap is passed over, and behind it an item is handed out or the end of the
input. -/
theorem step (s : Scanner) (before rest : List Char) (h : s.Stands before rest) :
    s.Step before rest := by
  cases rest with
  | nil =>
    refine .last { s with ended := true } ?_ .nothing ?_ ?_
    · rw [next_nil h.rest, if_neg (by simp [h.ended]), List.append_nil, ← h.line]
    · exact (next_nil (s := { s with ended := true }) h.rest).trans (if_pos rfl)
    · rw [items, h.rest, h.line, List.append_nil, pieces_nil]
      rfl
  | cons c rest =>
    have htext := Piece.text_append_cut c rest
    have hfits := Piece.fits_cut c rest
    have hlt := Piece.length_cut_lt c rest
    have hne := Piece.cut_text_ne_nil c rest
    have hnext := next_cons h.rest
    have hitems : s.items = Item.ofPieces s.line
        ((Piece.cut c rest).1 :: pieces (Piece.cut c rest).2) := by
      rw [items, h.rest, pieces_cons]
    generalize Piece.cut c rest = cut at htext hfits hlt hne hnext hitems
    obtain ⟨piece, rest'⟩ := cut
    have hbehind := h.behind piece rest'
    change piece.text ++ rest' = c :: rest at htext
    rw [← htext]
    cases hitem : Item.ofPiece? (s.behind piece rest').line piece with
    | none =>
      rw [hitem] at hnext
      have hgap : ∀ gap behind, rest' = gap ++ behind → Skipped gap behind →
          Skipped (piece.text ++ gap) behind := by
        rw [Piece.Fits, Item.content_of_ofPiece?_eq_none hitem] at hfits
        exact hfits
      refine .of_gap hgap hnext (hitems.trans ?_) (step _ _ _ hbehind)
      exact Item.ofPieces_cons_of_none hitem _
    | some item =>
      rw [hitem] at hnext
      refine .item (s.behind piece rest') [] piece.text rest' item rfl hnext .nothing hne ?_ ?_ ?_
        (hitems.trans (Item.ofPieces_cons_of_some hitem _))
      · rw [List.append_nil]
        exact h.curr
      · rwa [List.append_nil]
      · rw [List.append_nil, ← List.append_assoc]
        refine describes_of_ofPiece hfits ?_ hitem
        rw [Scanner.behind, h.line]
termination_by rest.length

/-! ### All calls -/

/-- The end of the input of a text, as an item. -/
def endItem (source : List Char) : Item :=
  .token ⟨.eof, "", 1 + source.count '\n'⟩

/-- A scanner that is at the end of its text hands out nothing. -/
theorem item?_of_next_eq_none (h : s.next = (none, s)) (n : Nat) : s.item? n = none := by
  induction n with
  | zero => exact congrArg Prod.fst h
  | succ n ih =>
    rw [item?, after, h]
    exact ih

/-- What a scanner is still to hand out tiles the text that is left. -/
theorem exists_tiled {source : List Char} (s : Scanner) (before rest : List Char)
    (h : s.Stands before rest) (hsource : before ++ rest = source) :
    ∃ found, (∀ n, s.item? n = (found.map Prod.fst ++ [endItem source])[n]?) ∧
      s.items = found.map Prod.fst ++ [endItem source] ∧
      (∀ n entry, found[n]? = some entry → (s.after (n + 1)).span = entry.2) ∧
      Tiled source before rest found := by
  cases step s before rest h with
  | last s' hnext hgap hend hitems =>
    rw [hsource] at hnext hitems
    refine ⟨[], fun n => ?_, hitems, fun n entry hn => absurd hn (by simp), .last hgap⟩
    cases n with
    | zero => exact congrArg Prod.fst hnext
    | succ n =>
      rw [item?, after, hnext]
      exact item?_of_next_eq_none hend n
  | item s' gap text rest' item hrest hnext hgap htext hstart hstands hitem hitems =>
    have hlt : rest'.length < rest.length := by
      have hpos := List.length_pos_iff.mpr htext
      simp only [hrest, List.length_append]
      omega
    have hsource' : before ++ gap ++ text ++ rest' = source := by
      rw [← hsource, hrest]
      simp only [List.append_assoc]
    obtain ⟨found, hcalls, hitems', hspans, htiled⟩ := exists_tiled s' _ _ hstands hsource'
    rw [hsource] at hitem
    refine ⟨(item, s'.span) :: found, fun n => ?_, ?_, fun n entry hn => ?_, ?_⟩
    · cases n with
      | zero => exact congrArg Prod.fst hnext
      | succ n =>
        rw [item?, after, hnext]
        exact hcalls n
    · rw [hitems, hitems']
      rfl
    · rw [after, hnext]
      cases n with
      | zero =>
        obtain rfl := Option.some.inj hn
        rfl
      | succ n => exact hspans n entry hn
    · rw [hrest]
      exact .item hgap htext hstart hstands.curr hitem htiled
termination_by rest.length

theorem stands_ofText (source : String) : (ofText source).Stands [] source.toList :=
  ⟨rfl, rfl, rfl, rfl⟩

/-- **The scanner partitions its input.** It hands out the items of the text, one call after
another, and nothing ever after; the end of the input is the last of them and the only one of its
kind. The spans of the others are not empty and lie one behind the other, and they and the gaps
between them, which are white space and comments, make up the text. -/
theorem partitions (source : String) : ∃ found : List (Item × Span),
    (∀ n, (ofText source).item? n =
      (found.map Prod.fst ++ [endItem source.toList])[n]?) ∧
    scan source = found.map Prod.fst ++ [endItem source.toList] ∧
    (∀ entry ∈ found, ∀ t, entry.1 = .token t → t.kind ≠ .eof) ∧
    (∀ n entry, found[n]? = some entry → ((ofText source).after (n + 1)).span = entry.2) ∧
    (∀ entry ∈ found, entry.2.start < entry.2.stop) ∧
    found.Pairwise (fun a b => a.2.stop ≤ b.2.start) ∧
    Tiled source.toList [] source.toList found := by
  obtain ⟨found, hcalls, hitems, hspans, htiled⟩ :=
    exists_tiled _ _ _ (stands_ofText source) (List.nil_append _)
  exact ⟨found, hcalls, hitems, htiled.kind_ne_eof, hspans, htiled.start_lt_stop,
    htiled.pairwise_stop_le_start, htiled⟩

end Scanner

/-- The text of a token is the spelling of its kind, if it is not the end of the input. -/
theorem spells_of_mem_tokens {source : String} :
    ∀ t ∈ tokens source, t.kind = .eof ∨ t.kind.Spells t.lexeme.toList := by
  obtain ⟨found, -, hitems, -, htiled⟩ :=
    Scanner.exists_tiled _ _ _ (Scanner.stands_ofText source) (List.nil_append _)
  intro t ht
  obtain ⟨item, hitem, htoken⟩ := List.mem_filterMap.mp ht
  have hitem' : item ∈ found.map Prod.fst ++ [Scanner.endItem source.toList] := hitems ▸ hitem
  rcases List.mem_append.mp hitem' with hfound | hend
  · obtain ⟨entry, hentry, rfl⟩ := List.mem_map.mp hfound
    cases hfst : entry.1 with
    | token t' =>
      rw [hfst] at htoken
      obtain rfl := Option.some.inj htoken
      exact .inr (htiled.spells entry hentry _ hfst)
    | fault e =>
      rw [hfst] at htoken
      exact absurd htoken (by simp [Item.token?])
  · obtain rfl := List.mem_singleton.mp hend
    obtain rfl := Option.some.inj htoken
    exact .inl rfl

end Lox
