import AsmIndex.Proofs.CommentMasks
import Mathlib.Data.List.Infix

/-!
How a line reads from the left, and what masking makes of it. A line falls into characters of
code, string literals and comments in exactly one way. Masking replaces the bytes of the comments
by spaces and keeps all others; what is left has no comment, so that masking it again changes
nothing.
-/

namespace AsmIndex

/-- The bytes of a text in UTF-8. -/
def Text.bytes (cs : List Char) : List UInt8 := cs.flatMap String.utf8EncodeChar

namespace Source

/-- A segment of a line: a character of code, or a string literal or a comment with its
delimiters. -/
inductive Segment
  | code (c : Char)
  | literal (text : List Char)
  | comment (text : List Char)

namespace Segment

def text : Segment → List Char
  | code c => [c]
  | literal text => text
  | comment text => text

def isLiteral : Segment → Bool
  | literal _ => true
  | _ => false

def isComment : Segment → Bool
  | comment _ => true
  | _ => false

end Segment

/-- The text up to the end of the first `mark` in it, or to its own end if it has none; what
follows; and whether the mark was found. -/
inductive UpTo (mark cs : List Char) : List Char → List Char → Bool → Prop
  | found {body rest} (split : cs = body ++ mark ++ rest)
      (first : ¬ mark <:+: body ++ mark.dropLast) :
      UpTo mark cs (body ++ mark) rest true
  | absent (none : ¬ mark <:+: cs) : UpTo mark cs cs [] false

/-- The text starts with a mark that opens a comment. -/
def StartsComment (cs : List Char) : Prop := ['/', '/'] <+: cs ∨ ['/', '*'] <+: cs

/-- The first segment of a line that starts inside a comment or outside, what follows the segment,
and whether this starts inside a comment. -/
inductive FirstSegment : Bool → List Char → Segment → List Char → Bool → Prop
  | code {c rest} (noQuote : c ≠ '"') (noComment : ¬ StartsComment (c :: rest)) :
      FirstSegment false (c :: rest) (.code c) rest false
  | literal {cs text rest closed} (runs : UpTo ['"'] cs text rest closed) :
      FirstSegment false ('"' :: cs) (.literal ('"' :: text)) rest false
  | lineComment {cs} :
      FirstSegment false ('/' :: '/' :: cs) (.comment ('/' :: '/' :: cs)) [] false
  | blockComment {cs text rest closed} (runs : UpTo ['*', '/'] cs text rest closed) :
      FirstSegment false ('/' :: '*' :: cs) (.comment ('/' :: '*' :: text)) rest (!closed)
  | continued {c cs text rest closed} (runs : UpTo ['*', '/'] (c :: cs) text rest closed) :
      FirstSegment true (c :: cs) (.comment text) rest (!closed)

/-- The segments of a line that starts inside a comment or outside, and whether it ends inside
one. -/
inductive Segmented : Bool → List Char → List Segment → Bool → Prop
  | done (inComment) : Segmented inComment [] [] inComment
  | next {inComment line segment rest later segments ending}
      (first : FirstSegment inComment line segment rest later)
      (more : Segmented later rest segments ending) :
      Segmented inComment line (segment :: segments) ending

/-- For each byte of a line whether it is part of a comment. -/
def commentBytes (segments : List Segment) : List Bool :=
  segments.flatMap fun segment => List.replicate (Text.width segment.text) segment.isComment

/-- For each character of a line whether it is part of a string literal. -/
def literalMarks (segments : List Segment) : List Bool :=
  segments.flatMap fun segment => List.replicate segment.text.length segment.isLiteral

@[simp] theorem commentBytes_cons (segment : Segment) (segments : List Segment) :
    commentBytes (segment :: segments) =
      List.replicate (Text.width segment.text) segment.isComment ++ commentBytes segments :=
  rfl

@[simp] theorem literalMarks_cons (segment : Segment) (segments : List Segment) :
    literalMarks (segment :: segments) =
      List.replicate segment.text.length segment.isLiteral ++ literalMarks segments :=
  rfl

section UpTo

variable {mark cs text rest text' rest' : List Char} {c : Char} {closed closed' : Bool}

theorem UpTo.split (h : UpTo mark cs text rest closed) : cs = text ++ rest := by
  cases h with
  | found split _ => exact split
  | absent _ => rw [List.append_nil]

theorem UpTo.rest_nil (h : UpTo mark cs text rest false) : rest = [] := by
  cases h
  rfl

/-- What follows a closed text does not matter. -/
theorem UpTo.replace (h : UpTo mark cs text rest closed) (hrest : closed = false → rest' = []) :
    UpTo mark (text ++ rest') text rest' closed := by
  cases h with
  | found _ first => exact .found rfl first
  | absent none =>
      rw [hrest rfl, List.append_nil]
      exact .absent none

/-- A mark at the start is the first one. -/
theorem UpTo.start (h : UpTo mark (mark ++ cs) text rest closed) :
    text = mark ∧ rest = cs ∧ closed = true := by
  cases h with
  | @found body rest split first =>
      cases body with
      | nil => exact ⟨rfl, (List.append_cancel_left split).symm, rfl⟩
      | cons d body =>
          -- Otherwise the mark at the start ends before the one that is found.
          have hbefore : d :: body ++ mark.dropLast <+: mark ++ cs := by
            rw [split, List.append_assoc, List.prefix_append_right_inj]
            exact (List.dropLast_prefix mark).trans (List.prefix_append mark rest)
          have hlength : mark.length ≤ (d :: body ++ mark.dropLast).length := by
            simp only [List.length_append, List.length_cons, List.length_dropLast]
            omega
          have hmark := List.prefix_of_prefix_length_le (List.prefix_append mark cs) hbefore hlength
          exact absurd hmark.isInfix first
  | absent none => exact absurd (List.prefix_append mark cs).isInfix none

theorem UpTo.tail (h : UpTo mark (c :: cs) text rest closed) (hstart : ¬ mark <+: c :: cs) :
    ∃ text', text = c :: text' ∧ UpTo mark cs text' rest closed := by
  cases h with
  | @found body rest split first =>
      cases body with
      | nil => exact absurd ⟨rest, by rw [split]; rfl⟩ hstart
      | cons d body =>
          obtain ⟨rfl, hcs⟩ := List.cons.inj split
          exact ⟨body ++ mark, rfl, .found hcs fun hearlier => first (List.infix_cons hearlier)⟩
  | absent none => exact ⟨cs, rfl, .absent fun hlater => none (List.infix_cons hlater)⟩

theorem UpTo.of_nil (h : UpTo mark [] text rest closed) (hmark : mark ≠ []) :
    text = [] ∧ rest = [] ∧ closed = false := by
  cases h with
  | found split _ =>
      have hnil := List.append_eq_nil_iff.1 split.symm
      exact absurd (List.append_eq_nil_iff.1 hnil.1).2 hmark
  | absent _ => exact ⟨rfl, rfl, rfl⟩

theorem UpTo.unique (h : UpTo mark cs text rest closed) (h' : UpTo mark cs text' rest' closed')
    (hmark : mark ≠ []) : text = text' ∧ rest = rest' ∧ closed = closed' := by
  induction cs generalizing text text' with
  | nil =>
      obtain ⟨rfl, rfl, rfl⟩ := h.of_nil hmark
      obtain ⟨rfl, rfl, rfl⟩ := h'.of_nil hmark
      exact ⟨rfl, rfl, rfl⟩
  | cons c cs ih =>
      by_cases hstart : mark <+: c :: cs
      · obtain ⟨after, hafter⟩ := hstart
        rw [← hafter] at h h'
        obtain ⟨rfl, rfl, rfl⟩ := h.start
        obtain ⟨rfl, rfl, rfl⟩ := h'.start
        exact ⟨rfl, rfl, rfl⟩
      · obtain ⟨text, rfl, htail⟩ := h.tail hstart
        obtain ⟨text', rfl, htail'⟩ := h'.tail hstart
        obtain ⟨rfl, hrest⟩ := ih htail htail'
        exact ⟨rfl, hrest⟩

theorem upTo_start (hmark : mark ≠ []) : UpTo mark (mark ++ rest) mark rest true := by
  have hfirst : ¬ mark <:+: [] ++ mark.dropLast := by
    intro hearlier
    have hlength := hearlier.length_le
    rw [List.nil_append, List.length_dropLast] at hlength
    have hpos := List.length_pos_iff.2 hmark
    omega
  exact .found rfl hfirst

theorem UpTo.cons (h : UpTo mark cs text rest closed) (hstart : ¬ mark <+: c :: cs) :
    UpTo mark (c :: cs) (c :: text) rest closed := by
  cases h with
  | @found body rest split first =>
      have hfirst : ¬ mark <:+: c :: body ++ mark.dropLast := by
        intro hearlier
        rcases List.infix_cons_iff.1 hearlier with hhere | hlater
        · have hbefore : c :: (body ++ mark.dropLast) <+: c :: cs := by
            rw [split, List.append_assoc, List.prefix_cons_inj, List.prefix_append_right_inj]
            exact (List.dropLast_prefix mark).trans (List.prefix_append mark rest)
          exact hstart (hhere.trans hbefore)
        · exact first hlater
      exact .found (by rw [split]; rfl) hfirst
  | absent none => exact .absent fun hmem => (List.infix_cons_iff.1 hmem).elim hstart none

theorem exists_upTo (hmark : mark ≠ []) (cs : List Char) :
    ∃ text rest closed, UpTo mark cs text rest closed := by
  induction cs with
  | nil => exact ⟨[], [], false, .absent (by simpa using hmark)⟩
  | cons c cs ih =>
      by_cases hstart : mark <+: c :: cs
      · obtain ⟨after, hafter⟩ := hstart
        rw [← hafter]
        exact ⟨mark, after, true, upTo_start hmark⟩
      · obtain ⟨text, rest, closed, h⟩ := ih
        exact ⟨c :: text, rest, closed, h.cons hstart⟩

end UpTo

theorem startsComment_cons {c : Char} {cs : List Char} :
    StartsComment (c :: cs) ↔ c = '/' ∧ (cs.head? = some '/' ∨ cs.head? = some '*') := by
  cases cs <;> simp [StartsComment, List.cons_prefix_cons, eq_comm, ← and_or_left]

section FirstSegment

variable {inComment later later' : Bool} {line rest rest' : List Char} {segment segment' : Segment}

theorem FirstSegment.split (h : FirstSegment inComment line segment rest later) :
    line = segment.text ++ rest := by
  cases h with
  | code | lineComment => simp [Segment.text]
  | literal runs | blockComment runs => simp [Segment.text, runs.split]
  | continued runs => exact runs.split

theorem FirstSegment.unique (h : FirstSegment inComment line segment rest later)
    (h' : FirstSegment inComment line segment' rest' later') :
    segment = segment' ∧ rest = rest' ∧ later = later' := by
  cases h with
  | code noQuote noComment =>
      cases h' with
      | code => exact ⟨rfl, rfl, rfl⟩
      | literal => exact absurd rfl noQuote
      | lineComment | blockComment => simp [startsComment_cons] at noComment
  | literal runs =>
      cases h' with
      | code noQuote => exact absurd rfl noQuote
      | literal runs' =>
          obtain ⟨rfl, rfl, -⟩ := runs.unique runs' (by simp)
          exact ⟨rfl, rfl, rfl⟩
  | lineComment =>
      cases h' with
      | code _ noComment => simp [startsComment_cons] at noComment
      | lineComment => exact ⟨rfl, rfl, rfl⟩
  | blockComment runs =>
      cases h' with
      | code _ noComment => simp [startsComment_cons] at noComment
      | blockComment runs' =>
          obtain ⟨rfl, rfl, rfl⟩ := runs.unique runs' (by simp)
          exact ⟨rfl, rfl, rfl⟩
  | continued runs =>
      cases h' with
      | continued runs' =>
          obtain ⟨rfl, rfl, rfl⟩ := runs.unique runs' (by simp)
          exact ⟨rfl, rfl, rfl⟩

theorem FirstSegment.length_lt (h : FirstSegment inComment line segment rest later) :
    rest.length < line.length := by
  have hpos : 0 < segment.text.length := by
    cases h with
    | continued runs => cases runs <;> simp [Segment.text]
    | _ => simp [Segment.text]
  rw [h.split, List.length_append]
  omega

theorem exists_firstSegment (inComment : Bool) (c : Char) (cs : List Char) :
    ∃ segment rest later, FirstSegment inComment (c :: cs) segment rest later := by
  have hquote : ['"'] ≠ [] := by simp
  have hend : ['*', '/'] ≠ [] := by simp
  cases inComment with
  | true =>
      obtain ⟨text, rest, closed, runs⟩ := exists_upTo hend (c :: cs)
      exact ⟨_, rest, _, .continued runs⟩
  | false =>
      by_cases hc : c = '"'
      · obtain ⟨text, rest, closed, runs⟩ := exists_upTo hquote cs
        rw [hc]
        exact ⟨_, rest, _, .literal runs⟩
      · by_cases hstart : StartsComment (c :: cs)
        · rcases hstart with ⟨after, hafter⟩ | ⟨after, hafter⟩
          · rw [← hafter]
            exact ⟨_, _, _, .lineComment⟩
          · obtain ⟨text, rest, closed, runs⟩ := exists_upTo hend after
            rw [← hafter]
            exact ⟨_, _, _, .blockComment runs⟩
        · exact ⟨_, _, _, .code hc hstart⟩

end FirstSegment

section Segmented

variable {inComment ending ending' : Bool} {line : List Char} {segments segments' : List Segment}

theorem Segmented.split (h : Segmented inComment line segments ending) :
    line = segments.flatMap Segment.text := by
  induction h with
  | done => rfl
  | next first _ ih => rw [first.split, ih, List.flatMap_cons]

theorem Segmented.unique (h : Segmented inComment line segments ending)
    (h' : Segmented inComment line segments' ending') :
    segments = segments' ∧ ending = ending' := by
  induction h generalizing segments' with
  | done =>
      cases h' with
      | done => exact ⟨rfl, rfl⟩
      | next first => exact absurd first.length_lt (by simp)
  | next first _ ih =>
      cases h' with
      | done => exact absurd first.length_lt (by simp)
      | next first' more' =>
          obtain ⟨rfl, rfl, rfl⟩ := first.unique first'
          obtain ⟨rfl, hending⟩ := ih more'
          exact ⟨rfl, hending⟩

theorem exists_segmented (inComment : Bool) (line : List Char) :
    ∃ segments ending, Segmented inComment line segments ending := by
  induction hlength : line.length using Nat.strong_induction_on generalizing inComment line with
  | h k ih =>
      cases line with
      | nil => exact ⟨[], inComment, .done inComment⟩
      | cons c cs =>
          obtain ⟨segment, rest, later, first⟩ := exists_firstSegment inComment c cs
          obtain ⟨segments, ending, more⟩ :=
            ih rest.length (hlength ▸ first.length_lt) later rest rfl
          exact ⟨segment :: segments, ending, .next first more⟩

/-- What masking makes of a segment. -/
def Segment.masked : Segment → List Char
  | comment text => List.replicate (Text.width text) ' '
  | segment => segment.text

/-- The passage that a line starts in. -/
def Passage.atStart (inComment : Bool) : Passage := if inComment then .comment else .code

theorem maskFrom_literal {cs text rest : List Char} {closed : Bool}
    (h : UpTo ['"'] cs text rest closed) :
    maskFrom .literal cs = (text ++ (maskFrom .code rest).1, (maskFrom .code rest).2) := by
  induction cs generalizing text with
  | nil =>
      obtain ⟨rfl, rfl, -⟩ := h.of_nil (by simp)
      rfl
  | cons c cs ih =>
      rw [maskFrom]
      by_cases hc : c = '"'
      · rw [hc] at h ⊢
        have hstart : UpTo ['"'] (['"'] ++ cs) text rest closed := h
        obtain ⟨rfl, rfl, -⟩ := hstart.start
        simp
      · obtain ⟨text, rfl, htail⟩ := h.tail (by simpa [List.cons_prefix_cons] using Ne.symm hc)
        simp [hc, ih htail]

theorem maskFrom_comment {cs text rest : List Char} {closed : Bool}
    (h : UpTo ['*', '/'] cs text rest closed) :
    maskFrom .comment cs =
      (List.replicate (Text.width text) ' ' ++ (maskFrom (.atStart (!closed)) rest).1,
        (maskFrom (.atStart (!closed)) rest).2) := by
  induction cs generalizing text with
  | nil =>
      obtain ⟨rfl, rfl, rfl⟩ := h.of_nil (by simp)
      rfl
  | cons c cs ih =>
      by_cases hstart : ['*', '/'] <+: c :: cs
      · obtain ⟨after, hafter⟩ := hstart
        rw [← hafter] at h ⊢
        obtain ⟨rfl, rfl, rfl⟩ := h.start
        rw [List.cons_append, List.cons_append, maskFrom]
        rfl
      · obtain ⟨text, rfl, htail⟩ := h.tail hstart
        have hend : ∀ after, c = '*' → cs = '/' :: after → False := by
          rintro after rfl rfl
          exact hstart ⟨after, rfl⟩
        rw [maskFrom.eq_3 c cs hend, ih htail, blanks, Text.width_cons,
          ← List.replicate_append_replicate, List.append_assoc]

theorem Segment.masked_delimiter {a b : Char} (ha : a.utf8Size = 1) (hb : b.utf8Size = 1)
    (text : List Char) :
    (Segment.comment (a :: b :: text)).masked =
      ' ' :: ' ' :: List.replicate (Text.width text) ' ' := by
  rw [masked, Text.width_cons, Text.width_cons, ha, hb, Nat.add_comm 1, Nat.add_comm 1]
  rfl

theorem maskFrom_first {line rest : List Char} {segment : Segment} {inComment later : Bool}
    (h : FirstSegment inComment line segment rest later) :
    maskFrom (.atStart inComment) line =
      (segment.masked ++ (maskFrom (.atStart later) rest).1,
        (maskFrom (.atStart later) rest).2) := by
  cases h with
  | @code c rest noQuote noComment =>
      have hline : ∀ after, c = '/' → rest = '/' :: after → False := by
        rintro after rfl rfl
        exact noComment (.inl ⟨after, rfl⟩)
      have hblock : ∀ after, c = '/' → rest = '*' :: after → False := by
        rintro after rfl rfl
        exact noComment (.inr ⟨after, rfl⟩)
      change maskFrom .code (c :: rest) = _
      rw [maskFrom.eq_7 c rest hline hblock, if_neg noQuote]
      rfl
  | @literal cs text rest closed runs =>
      change maskFrom .code ('"' :: cs) = _
      rw [maskFrom, if_pos rfl, maskFrom_literal runs]
      · rfl
      · simp
      · simp
  | @lineComment cs =>
      change maskFrom .code ('/' :: '/' :: cs) = _
      rw [maskFrom.eq_5, flatMap_blanks, Segment.masked_delimiter rfl rfl]
      simp [maskFrom, Passage.atStart]
  | @blockComment cs text rest closed runs =>
      change maskFrom .code ('/' :: '*' :: cs) = _
      rw [maskFrom.eq_6, maskFrom_comment runs, Segment.masked_delimiter rfl rfl]
      rfl
  | continued runs => exact maskFrom_comment runs

theorem Segmented.mask_eq (h : Segmented inComment line segments ending) :
    mask inComment line = (segments.flatMap Segment.masked, ending) := by
  change maskFrom (.atStart inComment) line = _
  induction h with
  | done inComment => cases inComment <;> rfl
  | next first _ ih => rw [maskFrom_first first, ih, List.flatMap_cons]

/-- The segments that masking leaves of a segment. -/
def Segment.bare : Segment → List Segment
  | comment text => List.replicate (Text.width text) (.code ' ')
  | segment => [segment]

theorem Segment.masked_bare (segment : Segment) :
    segment.bare.flatMap Segment.masked = segment.masked := by
  cases segment with
  | comment text =>
      simp [bare, masked, Segment.text, List.flatMap_replicate, List.flatten_replicate_singleton]
  | _ => simp [bare]

theorem Segment.isComment_bare (segment : Segment) :
    ∀ s ∈ segment.bare, s.isComment = false := by
  cases segment with
  | comment text =>
      intro s hs
      rw [List.eq_of_mem_replicate hs]
      rfl
  | _ => simp [bare, isComment]

theorem segmented_spaces {masked : List Char} (h : Segmented false masked segments false)
    (k : Nat) :
    Segmented false (List.replicate k ' ' ++ masked) (List.replicate k (.code ' ') ++ segments)
      false := by
  induction k with
  | zero => exact h
  | succ k ih => exact .next (.code (by decide) (by simp [startsComment_cons])) ih

theorem Segmented.eq_nil (h : Segmented inComment [] segments ending) : segments = [] := by
  cases h with
  | done => rfl
  | next first => exact absurd first.length_lt (by simp)

/-- A masked line starts with a space or as the line does. -/
theorem head?_mask {c : Char} (h : (mask inComment line).1.head? = some c) (hc : c ≠ ' ') :
    line.head? = some c := by
  obtain ⟨after, hafter⟩ := List.head?_eq_some_iff.1 h
  have hmasked : (maskFrom (.atStart inComment) line).1 = [c] ++ after := hafter
  obtain ⟨line', rfl⟩ := (masking_maskFrom _ line).append_of_no_space hmasked
    (by simpa using Ne.symm hc)
  rfl

theorem Segmented.bare (h : Segmented inComment line segments ending) :
    Segmented false (segments.flatMap Segment.masked) (segments.flatMap Segment.bare) false := by
  induction h with
  | done => exact .done false
  | @next inComment line segment rest later segments ending first more ih =>
      rw [List.flatMap_cons, List.flatMap_cons]
      have hmasked : (mask later rest).1 = segments.flatMap Segment.masked := by rw [more.mask_eq]
      cases first with
      | code noQuote noComment =>
          refine .next (.code noQuote fun hstart => noComment ?_) ih
          rw [startsComment_cons, ← hmasked] at hstart
          exact startsComment_cons.2 ⟨hstart.1, hstart.2.imp
            (fun hhead => head?_mask hhead (by decide)) (fun hhead =>
              head?_mask hhead (by decide))⟩
      | literal runs =>
          refine .next (.literal (runs.replace ?_)) ih
          rintro rfl
          cases runs.rest_nil
          rw [more.eq_nil]
          rfl
      | lineComment | blockComment | continued => exact segmented_spaces ih _

/-- A literal that something follows ends with a quote. -/
theorem FirstSegment.getLast?_literal {text rest : List Char} {later : Bool}
    (h : FirstSegment inComment line (.literal text) rest later) (hrest : rest ≠ []) :
    text.getLast? = some '"' := by
  cases h with
  | literal runs =>
      cases runs with
      | found => rw [← List.cons_append, List.getLast?_concat]
      | absent => exact absurd rfl hrest

/-- In a line without comments, what would open one stands in a string literal. -/
theorem Segmented.literalMarks_opening (h : Segmented inComment line segments ending)
    (hbare : ∀ segment ∈ segments, segment.isComment = false) {before : List Char} {c : Char}
    {after : List Char} (hline : line = before ++ c :: after)
    (hstart : StartsComment (c :: after)) :
    [true, true] <+: (literalMarks segments).drop before.length := by
  induction h generalizing before with
  | done => simp at hline
  | @next inComment line segment rest later segments ending first more ih =>
      rw [List.forall_mem_cons] at hbare
      rw [literalMarks_cons]
      rcases append_eq_append_cons (first.split.symm.trans hline) with
        ⟨before, rfl, hrest⟩ | ⟨text, htext⟩
      · simpa [List.drop_append] using ih hbare.2 hrest
      · have hafter : after = text ++ rest := by
          simpa [htext] using hline.symm.trans first.split
        rw [startsComment_cons] at hstart
        cases segment with
        | code d =>
            cases first with
            | code _ noComment =>
                cases before with
                | nil => exact absurd (hline ▸ startsComment_cons.2 hstart) noComment
                | cons e before => simp [Segment.text] at htext
        | literal body =>
            cases text with
            | nil =>
                -- The mark would go on after the literal, but its first character is not a quote.
                have hrest : rest ≠ [] := by
                  rintro rfl
                  simp [hafter] at hstart
                have hlast := first.getLast?_literal hrest
                have hbody : body = before ++ [c] := htext
                simp [hbody, hstart.1] at hlast
            | cons d text => simp [htext, Segment.isLiteral, List.replicate_succ, List.drop_append]
        | comment body => exact absurd hbare.1 (by simp [Segment.isComment])

theorem length_bytes (cs : List Char) : (Text.bytes cs).length = Text.width cs := by
  induction cs with
  | nil => rfl
  | cons c cs ih => simpa [Text.bytes] using ih

theorem bytes_append (xs ys : List Char) : Text.bytes (xs ++ ys) = Text.bytes xs ++ Text.bytes ys :=
  List.flatMap_append

theorem bytes_spaces (k : Nat) : Text.bytes (List.replicate k ' ') = List.replicate k 0x20 := by
  induction k with
  | zero => rfl
  | succ k ih => rw [List.replicate_succ, List.replicate_succ, ← ih]; rfl

/-- A byte, or a space in its place where it is part of a comment. -/
def hide (hidden : Bool) (byte : UInt8) : UInt8 := if hidden then 0x20 else byte

theorem zipWith_hide (hidden : Bool) (bytes : List UInt8) :
    List.zipWith hide (List.replicate bytes.length hidden) bytes =
      if hidden then List.replicate bytes.length 0x20 else bytes := by
  induction bytes with
  | nil => cases hidden <;> rfl
  | cons b bytes ih => cases hidden <;> simp_all [hide, List.replicate_succ]

theorem length_commentBytes (segments : List Segment) :
    (commentBytes segments).length = Text.width (segments.flatMap Segment.text) := by
  induction segments with
  | nil => rfl
  | cons segment segments ih => simp [ih]

theorem bytes_masked (segments : List Segment) :
    Text.bytes (segments.flatMap Segment.masked) =
      List.zipWith hide (commentBytes segments) (Text.bytes (segments.flatMap Segment.text)) := by
  induction segments with
  | nil => rfl
  | cons segment segments ih =>
      rw [List.flatMap_cons, List.flatMap_cons, bytes_append, bytes_append, commentBytes_cons,
        List.zipWith_append (by simp [length_bytes]), ← ih, ← length_bytes, zipWith_hide,
        length_bytes]
      congr 1
      cases segment with
      | comment text => exact bytes_spaces _
      | _ => rfl

end Segmented

/-- Every line has exactly one reading. Masking puts a space in place of each byte of its comments
and keeps all other bytes, and it tells whether the line ends inside a comment. What would open a
comment in what it leaves stands in a string literal there, and masking that again leaves it as it
is. -/
theorem mask_follows_reading (inComment : Bool) (line : List Char) :
    let masked := (mask inComment line).1
    (∃ segments,
        (∀ segments' ending, Segmented inComment line segments' ending ↔
          segments' = segments ∧ ending = (mask inComment line).2) ∧
        Text.bytes masked = List.zipWith hide (commentBytes segments) (Text.bytes line)) ∧
      (Text.bytes masked).length = (Text.bytes line).length ∧
      (∃ segments, Segmented false masked segments false ∧
        ∀ before c after, masked = before ++ c :: after → StartsComment (c :: after) →
          [true, true] <+: (literalMarks segments).drop before.length) ∧
      mask false masked = (masked, false) := by
  intro masked
  obtain ⟨segments, ending, h⟩ := exists_segmented inComment line
  have hmask := h.mask_eq
  have hmasked : masked = segments.flatMap Segment.masked := congrArg Prod.fst hmask
  have hbare : Segmented false masked (segments.flatMap Segment.bare) false := hmasked ▸ h.bare
  refine ⟨⟨segments, fun segments' ending' => ⟨fun h' => ?_, ?_⟩, ?_⟩, ?_,
    ⟨_, hbare, ?_⟩, ?_⟩
  · obtain ⟨rfl, rfl⟩ := h.unique h'
    exact ⟨rfl, (congrArg Prod.snd hmask).symm⟩
  · rintro ⟨rfl, rfl⟩
    rwa [hmask]
  · rw [hmasked, bytes_masked, ← h.split]
  · rw [hmasked, bytes_masked, List.length_zipWith, length_commentBytes, ← h.split, length_bytes,
      Nat.min_self]
  · intro before c after hsplit hstart
    have hnone : ∀ s ∈ segments.flatMap Segment.bare, s.isComment = false := by
      intro s hs
      obtain ⟨segment, -, hs⟩ := List.mem_flatMap.1 hs
      exact segment.isComment_bare s hs
    exact hbare.literalMarks_opening hnone hsplit hstart
  · rw [hbare.mask_eq, List.flatMap_assoc, hmasked]
    simp only [Segment.masked_bare]

/-- Marks in a literal, marks that share characters, a quote in a comment, a character of two
bytes, and a comment that stays open. -/
def overlappingMarks : List Char := "\"//\" /*/é\"*//*".toList

theorem mask_follows_reading_overlappingMarks :
    (mask false overlappingMarks).1 = ['"'] ++ '/' :: "/\"           ".toList ∧
      StartsComment ('/' :: "/\"           ".toList) ∧
      (Text.bytes (mask false overlappingMarks).1).length = (Text.bytes overlappingMarks).length ∧
      (∃ segments, Segmented false (mask false overlappingMarks).1 segments false ∧
        [true, true] <+: (literalMarks segments).drop 1) ∧
      mask false (mask false overlappingMarks).1 = ((mask false overlappingMarks).1, false) := by
  have hmask : (mask false overlappingMarks).1 = ['"'] ++ '/' :: "/\"           ".toList := by
    decide +kernel
  have hstart : StartsComment ('/' :: "/\"           ".toList) := .inl ⟨_, rfl⟩
  obtain ⟨-, hlength, ⟨segments, hsegments, hliteral⟩, hagain⟩ :=
    mask_follows_reading false overlappingMarks
  exact ⟨hmask, hstart, hlength, ⟨segments, hsegments, hliteral _ _ _ hmask hstart⟩, hagain⟩

example : (mask false overlappingMarks).2 = true ∧
    mask true "a \"*//*/".toList = ("        ".toList, true) ∧
    mask true "*/// \"".toList = ("      ".toList, false) := by
  decide +kernel

end Source

end AsmIndex
