import DeepScope.Proofs.Token.Cases
import DeepScope.Proofs.Token.Comment
import DeepScope.Proofs.Token.Stream
import Mathlib.Data.List.Chain
import Mathlib.Data.List.Induction

namespace DeepScope

namespace Comment

/-- Complete comments one behind the other, and blanks too where they may be
    among them. -/
inductive Run (blanks : Bool) : List Char → Prop where
  | nil : Run blanks []
  | comment {body rest : List Char} :
    ¬['*', '/'] <:+: body → Run blanks rest →
    Run blanks ('/' :: '*' :: (body ++ '*' :: '/' :: rest))
  | blank {c : Char} {rest : List Char} :
    blanks = true → isBlank c = true → Run blanks rest → Run blanks (c :: rest)

variable {text : List Char} {n : Nat}

/-- A comment goes on to the first `*/`. -/
theorem exists_of_sizeToClose (h : sizeToClose text = some n) :
    ∃ body, text = body ++ '*' :: '/' :: text.drop n ∧ n = body.length + 2 ∧
      ¬['*', '/'] <:+: body := by
  fun_induction sizeToClose text generalizing n with
  | case1 rest =>
    cases h
    exact ⟨[], rfl, rfl, by simp⟩
  | case2 c text hclose ih =>
    obtain ⟨m, hm, rfl⟩ := Option.map_eq_some_iff.1 h
    obtain ⟨body, htext, hlength, hbody⟩ := ih hm
    refine ⟨c :: body, congrArg (c :: ·) htext, by rw [hlength]; rfl, fun hinfix => ?_⟩
    rcases List.infix_cons_iff.1 hinfix with ⟨more, hmore⟩ | hinfix
    · obtain ⟨hc, hmore⟩ := List.cons.inj hmore
      refine hclose (more ++ '*' :: '/' :: text.drop m) hc.symm (htext.trans ?_)
      rw [← hmore]
      rfl
    · exact hbody hinfix
  | case3 => cases h

/-- A comment in front of what is taken of the text behind it. -/
theorem exists_run_comment {blanks : Bool} {k more : Nat} (hclose : sizeToClose text = some k)
    (h : ∃ front rest, text.drop k = front ++ rest ∧ front.length = more ∧ Run blanks front) :
    ∃ front rest, '/' :: '*' :: text = front ++ rest ∧ front.length = k + 2 + more ∧
      Run blanks front := by
  obtain ⟨body, htext, hlength, hbody⟩ := exists_of_sizeToClose hclose
  obtain ⟨front, rest, hfront, rfl, hrun⟩ := h
  refine ⟨'/' :: '*' :: (body ++ '*' :: '/' :: front), rest, ?_, ?_, .comment hbody hrun⟩
  · rw [htext, hfront]
    simp
  · simp only [List.length_cons, List.length_append]
    omega

/-- What comments take of a text. -/
theorem exists_run_of_size (h : size text = .ok n) :
    ∃ front rest, text = front ++ rest ∧ front.length = n ∧ Run false front := by
  fun_induction size text generalizing n with
  | case1 => cases h
  | case2 text k hclose ih =>
    obtain ⟨more, hmore, hpure⟩ := exists_of_bind_eq_ok h
    cases hpure
    exact exists_run_comment hclose (ih hmore)
  | case3 text =>
    cases h
    exact ⟨[], text, rfl, rfl, .nil⟩

/-- What blanks and comments take of a text. -/
theorem exists_run_of_sizeWithBlanks (h : sizeWithBlanks text = .ok n) :
    ∃ front rest, text = front ++ rest ∧ front.length = n ∧ Run true front := by
  fun_induction sizeWithBlanks text generalizing n with
  | case1 => cases h
  | case2 text k hclose ih =>
    obtain ⟨more, hmore, hpure⟩ := exists_of_bind_eq_ok h
    cases hpure
    exact exists_run_comment hclose (ih hmore)
  | case3 c text _ hblank ih =>
    obtain ⟨more, hmore, hpure⟩ := exists_of_bind_eq_ok h
    cases hpure
    obtain ⟨front, rest, hfront, rfl, hrun⟩ := ih hmore
    exact ⟨c :: front, rest, congrArg (c :: ·) hfront, rfl, .blank rfl hblank hrun⟩
  | case4 c text =>
    cases h
    exact ⟨[], c :: text, rfl, rfl, .nil⟩
  | case5 =>
    cases h
    exact ⟨[], [], rfl, rfl, .nil⟩

end Comment

namespace Position

/-- A place is counted from the line feeds in front of it, and from the characters
    behind the last of them. -/
def behind (text : List Char) : Position :=
  ⟨1 + text.count '\n', 1 + (text.reverse.takeWhile (· ≠ '\n')).length⟩

theorem start_after (text : List Char) : start.after text = behind text := by
  induction text using List.reverseRecOn with
  | nil => rfl
  | append_singleton text c ih =>
    rw [after_append, ih, after_cons, after_nil, step]
    split
    · next hc => simp [behind, hc, Nat.add_assoc]
    · next hc => simp [behind, hc]; omega

theorem behind_after (front back : List Char) :
    (behind front).after back = behind (front ++ back) := by
  rw [← start_after, ← start_after, after_append]

/-- The order of lines, and of columns within one line. -/
def Before (first second : Position) : Prop :=
  first.line < second.line ∨ first.line = second.line ∧ first.column < second.column

/-- Every character moves the place on. -/
theorem before_after (place : Position) {text : List Char} (h : text ≠ []) :
    place.Before (place.after text) := by
  induction text using List.reverseRecOn with
  | nil => exact absurd rfl h
  | append_singleton text c ih =>
    have hstep : ∀ place : Position, place.Before (place.step c) := by
      intro place
      unfold step Before
      split <;> simp
    rw [after_append, after_cons, after_nil]
    by_cases hnil : text = []
    · rw [hnil]
      exact hstep place
    · have hfirst := ih hnil
      have hsecond := hstep (place.after text)
      unfold Before at *
      omega

end Position

/-- A token of a text with the characters that it is read from, and those of the
    comments in front of it. -/
structure Slice where
  item : Located
  comments : List Char
  chars : List Char

namespace Slice

/-- All characters of a slice. -/
def text (slice : Slice) : List Char :=
  slice.comments ++ slice.chars

/-- The characters of slices in a row. -/
def textAll (slices : List Slice) : List Char :=
  slices.flatMap text

/-- A slice between what stands before it and what stands behind. -/
structure Fits (before : List Char) (slice : Slice) (behind : List Char) : Prop where
  comments : Comment.Run false slice.comments
  reads : Token.scan (slice.chars ++ behind) = .ok (slice.item.token, slice.chars.length)
  position : slice.item.position = Position.behind (before ++ slice.comments)
  filled : slice.item.token ≠ .eof → slice.chars ≠ []
  ended : slice.item.token = .eof → slice.chars = [] ∧ behind = []
  /-- White space is as long as it can be. -/
  blank : slice.item.token = .whitespace →
    (∃ c rest, slice.chars = c :: rest ∧ isBlank c = true ∧ Comment.Run true rest) ∧
      (∀ c ∈ behind.head?, isBlank c = false) ∧ ¬['/', '*'] <+: behind

/-- Slices that follow one another behind some text, the last one that of the
    end. -/
inductive Covers : List Char → List Slice → Prop where
  | last {before : List Char} {slice : Slice} :
    slice.item.token = .eof → slice.Fits before [] → Covers before [slice]
  | step {before : List Char} {slice : Slice} {slices : List Slice} :
    slice.item.token ≠ .eof → slice.Fits before (textAll slices) →
    Covers (before ++ slice.text) slices → Covers before (slice :: slices)

theorem fits_of_scan {before comments chars behind : List Char} {token : Token}
    (hcomments : Comment.Run false comments)
    (hscan : Token.scan (chars ++ behind) = .ok (token, chars.length)) :
    Fits before ⟨⟨token, Position.behind (before ++ comments)⟩, comments, chars⟩ behind := by
  refine ⟨hcomments, hscan, rfl, fun hne hnil => ?_, fun heof => ?_, fun hblank => ?_⟩
  · subst hnil
    cases hbehind : behind with
    | nil =>
      rw [hbehind] at hscan
      cases hscan
      exact hne rfl
    | cons c rest =>
      rw [hbehind] at hscan
      exact absurd (Token.scan_pos (by simp) hscan) (by simp)
  · obtain rfl : token = .eof := heof
    exact List.append_eq_nil_iff.1 (Token.eq_nil_of_scan hscan)
  · obtain rfl : token = .whitespace := hblank
    obtain ⟨c, rest, htext, hc⟩ := Token.isBlank_of_scan hscan
    rw [htext, Token.scan_blank hc] at hscan
    obtain ⟨n, hsize, hpair⟩ := exists_of_map_eq_ok hscan
    obtain ⟨front, after, rfl, rfl, hrun⟩ := Comment.exists_run_of_sizeWithBlanks hsize
    have hlength : front.length + 1 = chars.length := (Prod.mk.inj hpair).2
    rw [← List.cons_append] at htext
    obtain ⟨rfl, rfl⟩ := List.append_inj htext hlength.symm
    have hstop := Comment.sizeWithBlanks_drop hsize
    rw [List.drop_left, Comment.sizeWithBlanks_eq_zero_iff] at hstop
    refine ⟨⟨c, front, rfl, hc, hrun⟩, fun d hd => ?_, hstop.2⟩
    simpa [Option.mem_def.1 hd] using hstop.1

end Slice

namespace Cursor

variable {cursor : Cursor} {before : List Char}

/-- The next token is read from a slice of its own. -/
theorem exists_fits_of_next {after : Cursor} {item : Located}
    (hposition : cursor.position = Position.behind before)
    (hnext : cursor.next = .ok (item, after)) :
    ∃ slice : Slice, slice.item = item ∧ slice.text ++ after.rest = cursor.rest ∧
      slice.Fits before after.rest ∧ after.position = Position.behind (before ++ slice.text) := by
  unfold next at hnext
  split at hnext
  · cases hnext
  · next n hsize =>
    obtain ⟨comments, rest, hrest, rfl, hrun⟩ := Comment.exists_run_of_size hsize
    dsimp only at hnext
    split at hnext
    · cases hnext
    · next token k hscan =>
      cases hnext
      obtain ⟨chars, behind, rfl, rfl⟩ : ∃ chars behind, rest = chars ++ behind ∧ chars.length = k := by
        have hle := Token.scan_le hscan
        simp only [advance, hrest, List.drop_left] at hle
        exact ⟨rest.take k, rest.drop k, (List.take_append_drop k rest).symm, List.length_take_of_le hle⟩
      simp only [advance, hrest, List.drop_left, List.take_left, hposition] at hscan ⊢
      refine ⟨⟨⟨token, Position.behind (before ++ comments)⟩, comments, chars⟩, ?_, ?_,
        Slice.fits_of_scan hrun hscan, ?_⟩
      · rw [Position.behind_after]
      · simp [Slice.text]
      · rw [Position.behind_after, Position.behind_after, Slice.text, List.append_assoc]

/-- The tokens behind a place are read from the slices of the text there. -/
theorem exists_covers {items : List Located} (hposition : cursor.position = Position.behind before)
    (h : collect cursor.items = .ok items) :
    ∃ slices, slices.map Slice.item = items ∧ Slice.textAll slices = cursor.rest ∧
      Slice.Covers before slices := by
  fun_induction Cursor.items cursor generalizing items before with
  | case1 => cases h
  | case2 cursor item after hread hend =>
    cases h
    obtain ⟨slice, rfl, htext, hfits, -⟩ := exists_fits_of_next hposition hread
    have hafter := (hfits.ended hend).2
    rw [hafter] at hfits htext
    exact ⟨[slice], rfl, by simpa [Slice.textAll] using htext, .last hend hfits⟩
  | case3 cursor item after hread hend _ ih =>
    obtain ⟨others, hothers, rfl⟩ := exists_of_map_eq_ok h
    obtain ⟨slice, rfl, htext, hfits, hafter⟩ := exists_fits_of_next hposition hread
    obtain ⟨slices, rfl, hrest, hcovers⟩ := ih hafter hothers
    refine ⟨slice :: slices, rfl, ?_, .step hend (by rwa [hrest]) hcovers⟩
    rw [← htext, ← hrest]
    rfl

end Cursor

namespace Slice.Covers

variable {before : List Char} {slices : List Slice}

/-- The end is the last token, and no other. -/
theorem exists_eof (h : Covers before slices) : ∃ front last, slices.map Slice.item = front ++ [last] ∧
    last.token = .eof ∧ ∀ item ∈ front, item.token ≠ .eof := by
  induction h with
  | @last _ slice hend _ => exact ⟨[], slice.item, rfl, hend, nofun⟩
  | @step _ slice _ hend _ _ ih =>
    obtain ⟨front, last, heq, hlast, hfront⟩ := ih
    exact ⟨slice.item :: front, last, congrArg (slice.item :: ·) heq, hlast,
      List.forall_mem_cons.2 ⟨hend, hfront⟩⟩

/-- White space takes all the blanks that there are. -/
theorem chain_whitespace (h : Covers before slices) : List.IsChain
    (fun first second => first.token = .whitespace → second.token ≠ .whitespace)
    (slices.map Slice.item) := by
  induction h with
  | last => exact .singleton _
  | @step _ slice slices _ hfits hcovers ih =>
    refine ih.cons fun item hitem hfirst hsecond => ?_
    obtain ⟨-, hblank, hcomment⟩ := hfits.blank hfirst
    have hhead : ∃ next others, slices = next :: others ∧ next.item = item ∧
        ∃ before behind, next.Fits before behind := by
      cases hcovers with
      | last _ hnext =>
        cases hitem
        exact ⟨_, _, rfl, rfl, _, _, hnext⟩
      | step _ hnext _ =>
        cases hitem
        exact ⟨_, _, rfl, rfl, _, _, hnext⟩
    obtain ⟨next, others, rfl, rfl, before, behind, hnext⟩ := hhead
    obtain ⟨⟨c, rest, hchars, hc, -⟩, -, -⟩ := hnext.blank hsecond
    have htext : textAll (next :: others) = next.comments ++ (c :: rest ++ textAll others) := by
      simp [textAll, text, hchars]
    rw [htext] at hblank hcomment
    cases hcomments : next.comments with
    | nil =>
      rw [hcomments] at hblank
      exact absurd hc (by simp [hblank c rfl])
    | cons d more =>
      have hrun := hnext.comments
      rw [hcomments] at hrun hcomment
      cases hrun with
      | comment => exact hcomment ⟨_, rfl⟩
      | blank hno => cases hno

/-- Each token has a place in the text of the slices. -/
theorem exists_position (h : Covers before slices) : ∀ slice ∈ slices, ∃ front back,
    front ++ back = textAll slices ∧ slice.item.position = Position.behind (before ++ front) := by
  have hfirst : ∀ {before behind : List Char} {slice : Slice} {slices : List Slice},
      slice.Fits before behind → ∃ front back, front ++ back = textAll (slice :: slices) ∧
        slice.item.position = Position.behind (before ++ front) := by
    intro before behind slice slices hfits
    refine ⟨slice.comments, slice.chars ++ textAll slices, ?_, hfits.position⟩
    rw [← List.append_assoc]
    rfl
  induction h with
  | last _ hfits => exact List.forall_mem_singleton.2 (hfirst hfits)
  | @step _ slice slices _ hfits _ ih =>
    refine List.forall_mem_cons.2 ⟨hfirst hfits, fun other hother => ?_⟩
    obtain ⟨front, back, hfront, hplace⟩ := ih other hother
    refine ⟨slice.text ++ front, back, ?_, by rw [hplace, List.append_assoc]⟩
    rw [List.append_assoc, hfront]
    rfl

/-- The places of the tokens come one behind the other. -/
theorem pairwise_position (h : Covers before slices) :
    List.Pairwise (fun first second => first.position.Before second.position)
      (slices.map Slice.item) := by
  induction h with
  | last => exact List.pairwise_singleton _ _
  | @step before slice slices hend hfits hcovers ih =>
    refine List.pairwise_cons.2 ⟨fun item hitem => ?_, ih⟩
    obtain ⟨other, hother, rfl⟩ := List.mem_map.1 hitem
    obtain ⟨more, -, -, hmore⟩ := hcovers.exists_position other hother
    have hafter : other.item.position = slice.item.position.after (slice.chars ++ more) := by
      rw [hmore, hfits.position, ← Position.start_after, ← Position.start_after,
        ← Position.after_append]
      simp [text]
    rw [hafter]
    exact Position.before_after _ (by simp [hfits.filled hend])

end Slice.Covers

/-- The tokens of a text are read from consecutive slices of it that leave out
    nothing but comments. The end comes last, no two white spaces stand next to each
    other, and each token has the place where its slice begins. -/
theorem tokenize_covers {text : String} {items : List Located} (h : tokenize text = .ok items) :
    ∃ slices, slices.map Slice.item = items ∧ Slice.textAll slices = Source.ofText text ∧
      Slice.Covers [] slices ∧
      (∃ front last, items = front ++ [last] ∧ last.token = .eof ∧
        ∀ item ∈ front, item.token ≠ .eof) ∧
      List.IsChain (fun first second => first.token = .whitespace → second.token ≠ .whitespace) items ∧
      List.Pairwise (fun first second => first.position.Before second.position) items := by
  have hstart : (Cursor.ofChars (Source.ofText text)).position = Position.behind [] := rfl
  obtain ⟨slices, rfl, htext, hcovers⟩ := Cursor.exists_covers hstart h
  exact ⟨slices, rfl, htext, hcovers, hcovers.exists_eof, hcovers.chain_whitespace,
    hcovers.pairwise_position⟩

/-- The escape takes the first blank, and the white space the rest. -/
theorem tokenize_covers_escape : ∃ slices, slices.map Slice.item =
      [⟨.ident "A", ⟨1, 1⟩⟩, ⟨.whitespace, ⟨2, 1⟩⟩, ⟨.ident "b", ⟨4, 1⟩⟩, ⟨.eof, ⟨4, 2⟩⟩] ∧
    Slice.textAll slices = Source.ofText "\\41\n /*\n*/\nb" ∧ Slice.Covers [] slices := by
  have hread : tokenize "\\41\n /*\n*/\nb" = .ok [⟨.ident "A", ⟨1, 1⟩⟩, ⟨.whitespace, ⟨2, 1⟩⟩,
      ⟨.ident "b", ⟨4, 1⟩⟩, ⟨.eof, ⟨4, 2⟩⟩] := eq_ok_of_toOption (by decide +kernel)
  obtain ⟨slices, hitems, htext, hcovers, -⟩ := tokenize_covers hread
  exact ⟨slices, hitems, htext, hcovers⟩

end DeepScope
