import DeepScope.Proofs.Token.Concat
import DeepScope.Proofs.Token.Text
import Mathlib.Data.List.Chain

namespace DeepScope

/-- A text that ends no comment. -/
def Unclosing (text : List Char) : Prop :=
  text.IsChain fun a b => ¬(a = '*' ∧ b = '/')

namespace Unclosing

variable {text front back : List Char}

/-- Texts can be put together where no star meets a slash. -/
theorem append (hfront : Unclosing front) (hback : Unclosing back)
    (hseam : front.getLast? ≠ some '*' ∨ back.head? ≠ some '/') : Unclosing (front ++ back) := by
  refine List.isChain_append.2 ⟨hfront, hback, fun a ha b hb hboth => ?_⟩
  rw [hboth.1] at ha
  rw [hboth.2] at hb
  exact hseam.elim (fun hstar => hstar ha) fun hslash => hslash hb

theorem cons {c : Char} (h : Unclosing text) (hseam : c ≠ '*' ∨ text.head? ≠ some '/') :
    Unclosing (c :: text) :=
  append (.singleton c) h (hseam.imp_left fun hc hlast => hc (Option.some.inj hlast))

theorem of_not_infix (h : ¬['*', '/'] <:+: text) : Unclosing text := by
  refine List.isChain_iff_forall_rel_of_append_cons_cons.2 ?_
  rintro a b before after rfl ⟨rfl, rfl⟩
  exact h ⟨before, after, by simp⟩

theorem sizeToClose_eq_none (h : Unclosing text) : Comment.sizeToClose text = none := by
  fun_induction Comment.sizeToClose text with
  | case1 rest => exact absurd ⟨rfl, rfl⟩ (List.isChain_cons_cons.1 h).1
  | case2 c rest _ ih =>
    rw [ih h.tail]
    rfl
  | case3 => rfl

/-- Folding line ends and replacing null characters ends no comment. -/
theorem normalize (h : Unclosing text) : Unclosing (Source.normalize text) := by
  fun_induction Source.normalize text with
  | case1 => exact .nil
  | case2 rest ih => exact (ih h.tail.tail).cons (.inl (by decide))
  | case3 c rest hpair ih =>
    refine (ih h.tail).cons (Decidable.not_and_iff_not_or_not.1 ?_)
    rintro ⟨hstar, hslash⟩
    have hrest := Source.head?_of_normalize (by decide) (by decide) hslash
    obtain ⟨tail, rfl⟩ := List.head?_eq_some_iff.1 hrest
    have hc : (Source.normalize (c :: '/' :: tail)).head? = some '*' := by
      rw [Source.normalize]
      · exact congrArg some hstar
      · intro more _ hslash
        cases hslash
    have hstar' := Source.head?_of_normalize (by decide) (by decide) hc
    exact (List.isChain_cons_cons.1 h).1 ⟨Option.some.inj hstar', rfl⟩

end Unclosing

namespace Comment

/-- A text that holds no `*/` lets a comment go on up to the one behind it. -/
theorem sizeToClose_append_close {comment : List Char} (h : sizeToClose comment = none)
    (rest : List Char) :
    sizeToClose (comment ++ '*' :: '/' :: rest) = some (comment.length + 2) := by
  fun_induction sizeToClose comment with
  | case1 => cases h
  | case2 c comment hclose ih =>
    rw [List.cons_append, sizeToClose, ih (Option.map_eq_none_iff.1 h)]
    · rfl
    · intro tail hc htail
      cases comment with
      | nil => cases htail
      | cons d comment =>
        rw [List.cons_append, List.cons.injEq] at htail
        exact hclose comment hc (by rw [htail.1])
  | case3 => rfl

end Comment

/-- Tokens in front of others. White space on both sides of the seam is one. -/
def joinTokens (front back : List Token) : List Token :=
  if front.getLast? = some .whitespace ∧ back.head? = some .whitespace then front ++ back.tail
  else front ++ back

theorem joinTokens_whitespace (tokens : List Token) :
    joinTokens [.whitespace] tokens = .whitespace :: dropBlank tokens := by
  unfold joinTokens
  cases tokens with
  | nil => rfl
  | cons t tokens =>
    by_cases ht : t = .whitespace
    · subst ht
      rfl
    · rw [if_neg fun h => ht (Option.some.inj h.2),
        dropBlank_of_ne fun others heq => ht (List.cons.inj heq).1]
      rfl

theorem joinTokens_cons {first : Token} {front : List Token}
    (h : front = [] → first ≠ .whitespace) (tokens : List Token) :
    joinTokens (first :: front) tokens = first :: joinTokens front tokens := by
  unfold joinTokens
  cases front with
  | nil => simp [h rfl]
  | cons second front =>
    rw [List.getLast?_cons_cons]
    split <;> rfl

namespace Lexes

variable {text more : List Char} {front tokens : List Token}

/-- A comment adds no token. -/
theorem comment_append_iff {comment : List Char} (hclose : Comment.sizeToClose comment = none) :
    Lexes ('/' :: '*' :: (comment ++ '*' :: '/' :: more)) tokens ↔ Lexes more tokens := by
  have hdrop : (comment ++ '*' :: '/' :: more).drop (comment.length + 2) = more := by
    rw [← List.drop_drop, List.drop_left]
    rfl
  rw [comment_iff (Comment.sizeToClose_append_close hclose more), hdrop]

/-- A slash ends every token in front of it just as the end of the text does.
    Only white space goes on in the comment that the slash may begin. -/
theorem append_slash (h : Lexes text (front ++ [.eof])) (hslash : more.head? = some '/')
    (hmore : Lexes more tokens) : Lexes (text ++ more) (joinTokens front tokens) := by
  induction front generalizing text with
  | nil => exact h.comments_append hmore
  | cons first front ih =>
    obtain ⟨rest, hread, hne, hrest⟩ := h.cons_inv (by simp)
    by_cases hlast : front = [] ∧ first = .whitespace
    · obtain ⟨rfl, rfl⟩ := hlast
      obtain ⟨n, hsize, hdrop⟩ := hmore.skipBlanks
      rw [joinTokens_whitespace]
      exact whitespace_append hread hrest hsize hdrop
    · have hgoes : first = .whitespace → rest ≠ [] := by
        rintro hblank rfl
        have hnil := hrest.unique Lexes.nil
        exact hlast ⟨by simpa using hnil, hblank⟩
      rw [joinTokens_cons (fun hfront hblank => hlast ⟨hfront, hblank⟩)]
      exact .step (hread.more hne (.inr hslash) hgoes) hne (ih hrest)

end Lexes

/-- A text with a comment and another text behind it is made ready part by part. -/
theorem Source.ofText_comment {b : String} (a w : String) (hmark : b.toList.head? ≠ some '\uFEFF') :
    ofText (a ++ "/*" ++ w ++ "*/" ++ b) =
      ofText a ++ '/' :: '*' :: (normalize w.toList ++ '*' :: '/' :: ofText b) := by
  have hdrop : ∀ front back : List Char,
      dropMark (front ++ '/' :: back) = dropMark front ++ '/' :: back := by
    intro front back
    cases front with
    | nil => exact dropMark_of_head (by simp)
    | cons c front =>
      rw [List.cons_append]
      unfold dropMark
      split <;> simp_all
  have htext : (a ++ "/*" ++ w ++ "*/" ++ b).toList =
      a.toList ++ '/' :: '*' :: (w.toList ++ '*' :: '/' :: b.toList) := by
    simp
  rw [ofText, ofText, ofText, htext, hdrop, normalize_append (.inr (by simp)), normalize_comment,
    dropMark_of_head hmark]

/-- A comment between two texts that can be read keeps their tokens apart: what is
    read are the tokens of both, and white space on both sides of the comment
    counts once. -/
theorem tokenize_comment_between {a b w : String} {first second : List Located}
    (ha : tokenize a = .ok first) (hb : tokenize b = .ok second)
    (hmark : b.toList.head? ≠ some '\uFEFF') (hw : ¬['*', '/'] <:+: w.toList) :
    ∃ items, tokenize (a ++ "/*" ++ w ++ "*/" ++ b) = .ok items ∧
      items.map Located.token =
        joinTokens (first.map Located.token).dropLast (second.map Located.token) := by
  have hfirst := tokenize_iff.1 ⟨first, ha, rfl⟩
  have hsecond := tokenize_iff.1 ⟨second, hb, rfl⟩
  obtain ⟨front, hfront, -⟩ := hfirst.exists_append_eof
  rw [hfront] at hfirst
  rw [hfront, List.dropLast_concat, tokenize_iff, Source.ofText_comment a w hmark]
  have hclose := (Unclosing.of_not_infix hw).normalize.sizeToClose_eq_none
  exact hfirst.append_slash rfl ((Lexes.comment_append_iff hclose).2 hsecond)

/-- A number in front of what would be its exponent, and white space on both
    sides. -/
theorem tokenize_comment_between_exponent :
    (∃ items, tokenize ("1" ++ "/*" ++ "*" ++ "*/" ++ "e3") = .ok items ∧
      items.map Located.token = [.number ⟨"1", .integer⟩, .ident "e3", .eof]) ∧
    ∃ items, tokenize (" " ++ "/*" ++ "/" ++ "*/" ++ " ") = .ok items ∧
      items.map Located.token = [.whitespace, .eof] := by
  have hnumber : (Token.number ⟨"1", .integer⟩).ReadsAlone := by
    refine Token.readsAlone_of_legible ?_ (by decide) rfl rfl
    exact Numeral.proper_read (show Numeral.starts ['1'] = true from rfl)
  have hname : (Token.ident "e3").ReadsAlone :=
    Token.readsAlone_of_legible (show IsName "e3" by decide) (by decide) rfl rfl
  have hblank : Token.whitespace.ReadsAlone := Token.readsAlone_of_legible trivial (by decide) rfl rfl
  obtain ⟨first, hfirst, hfront⟩ := exists_of_map_eq_ok hnumber
  obtain ⟨second, hsecond, hback⟩ := exists_of_map_eq_ok hname
  obtain ⟨blank, hread, htokens⟩ := exists_of_map_eq_ok hblank
  constructor
  · obtain ⟨items, hitems, hjoin⟩ :=
      tokenize_comment_between (w := "*") hfirst hsecond (by decide) (by decide)
    refine ⟨items, hitems, ?_⟩
    rw [hjoin, hfront, hback]
    rfl
  · obtain ⟨items, hitems, hjoin⟩ :=
      tokenize_comment_between (w := "/") hread hread (by decide) (by decide)
    refine ⟨items, hitems, ?_⟩
    rw [hjoin, htokens]
    rfl

end DeepScope
