import DeepScope.Encoding.Utf8
import DeepScope.Outcome
import DeepScope.Proofs.Encoding.Code

namespace DeepScope

namespace Utf8

/-- The bits of a code in front of those that so many continuing bytes hold. -/
def bitsBefore (code : Nat) : Nat → Nat
  | 0 => code
  | tails + 1 => bitsBefore code tails / 64

/-- The bytes behind the first one of a character: the last six bits of its
    code, the six before them, and so on. -/
def tailBytes (code : Nat) : Nat → List UInt8
  | 0 => []
  | tails + 1 => UInt8.ofNat (0x80 + bitsBefore code tails % 64) :: tailBytes code tails

theorem length_tailBytes (code tails : Nat) : (tailBytes code tails).length = tails := by
  induction tails with
  | zero => rfl
  | succ tails ih => rw [tailBytes, List.length_cons, ih]

/-- A continuing byte adds six bits to the code. -/
theorem continues_iff {b : UInt8} {high next : Nat} :
    (0x80 ≤ b.toNat ∧ b.toNat ≤ 0xBF ∧ next = 64 * high + (b.toNat - 0x80)) ↔
      next / 64 = high ∧ b = UInt8.ofNat (0x80 + next % 64) := by
  rw [← UInt8.toNat_inj, UInt8.toNat_ofNat']
  omega

theorem readTails_succ {code taken final tails : Nat} {low high b : UInt8} {rest : List UInt8} :
    readTails code taken low high (tails + 1) (b :: rest) = .ok final ↔
      (low.toNat ≤ b.toNat ∧ b.toNat ≤ high.toNat) ∧
        readTails (64 * code + (b.toNat - 0x80)) (taken + 1) 0x80 0xBF tails rest = .ok final := by
  rw [readTails]
  by_cases hb : low ≤ b ∧ b ≤ high
  · rw [if_pos (by simpa using hb), ← UInt8.le_iff_toNat_le, ← UInt8.le_iff_toNat_le]
    exact (and_iff_right hb).symm
  · rw [if_neg (by simpa using hb), ← UInt8.le_iff_toNat_le, ← UInt8.le_iff_toNat_le]
    exact iff_of_false nofun fun h => hb h.1

/-- The remaining bytes complete a code exactly if they are its last bits, and
    what was read before are its first ones. -/
theorem readTails_eq_ok_iff {code taken final tails : Nat} {bytes : List UInt8} :
    readTails code taken 0x80 0xBF tails bytes = .ok final ↔
      bitsBefore final tails = code ∧ tailBytes final tails <+: bytes := by
  induction tails generalizing code taken bytes with
  | zero =>
    rw [readTails, bitsBefore, Except.ok.injEq]
    exact ⟨fun h => ⟨h.symm, List.nil_prefix⟩, fun h => h.1.symm⟩
  | succ tails ih =>
    cases bytes with
    | nil => exact iff_of_false nofun fun h => nomatch List.prefix_nil.1 h.2
    | cons b rest =>
      rw [readTails_succ, ih, tailBytes, List.cons_prefix_cons, bitsBefore]
      have hstep := @continues_iff b code (bitsBefore final tails)
      constructor
      · rintro ⟨⟨hlow, hhigh⟩, hnext, hrest⟩
        obtain ⟨hcode, rfl⟩ := hstep.1 ⟨hlow, hhigh, hnext⟩
        exact ⟨hcode, rfl, hrest⟩
      · rintro ⟨hcode, hb, hrest⟩
        obtain ⟨hlow, hhigh, hnext⟩ := hstep.2 ⟨hcode, hb.symm⟩
        exact ⟨⟨hlow, hhigh⟩, hnext, hrest⟩

/-- The first byte of the character with a code, and the number of bytes behind
    it. -/
def Leads (a : UInt8) (tails code : Nat) : Prop :=
  tails = 0 ∧ code < 0x80 ∧ a.toNat = code ∨
    tails = 1 ∧ 0x80 ≤ code ∧ code < 0x800 ∧ a.toNat = 0xC0 + code / 64 ∨
    tails = 2 ∧ 0x800 ≤ code ∧ code < 0x10000 ∧ a.toNat = 0xE0 + code / 4096 ∨
    tails = 3 ∧ 0x10000 ≤ code ∧ a.toNat = 0xF0 + code / 262144

theorem Leads.unique {a b : UInt8} {tails tails' code : Nat} (h : Leads a tails code)
    (h' : Leads b tails' code) : a = b ∧ tails = tails' := by
  rw [← UInt8.toNat_inj]
  unfold Leads at h h'
  omega

theorem exists_leads (c : Char) :
    ∃ a tails, Leads a tails c.toNat ∧
      String.utf8EncodeChar c = a :: tailBytes c.toNat tails := by
  have hbounds := isValidChar_toNat c
  unfold String.utf8EncodeChar
  rw [Char.toNat_val]
  generalize c.toNat = code at *
  dsimp only
  split
  · refine ⟨_, 0, .inl ⟨rfl, by omega, ?_⟩, rfl⟩
    rw [UInt8.toNat_ofNat']
    omega
  · split
    · refine ⟨UInt8.ofNat (code / 64 % 0x20 + 0xC0), 1, .inr (.inl ⟨rfl, by omega, by omega, ?_⟩), ?_⟩
      · rw [UInt8.toNat_ofNat']
        omega
      · rw [tailBytes, tailBytes, bitsBefore, Nat.add_comm 0x80]
    · split
      · refine ⟨UInt8.ofNat (code / 4096 % 0x10 + 0xE0), 2,
          .inr (.inr (.inl ⟨rfl, by omega, by omega, ?_⟩)), ?_⟩
        · rw [UInt8.toNat_ofNat']
          omega
        · simp only [tailBytes, bitsBefore, Nat.add_comm 0x80]
      · refine ⟨UInt8.ofNat (code / 262144 % 8 + 0xF0), 3,
          .inr (.inr (.inr ⟨rfl, by omega, ?_⟩)), ?_⟩
        · rw [UInt8.toNat_ofNat']
          omega
        · simp only [tailBytes, bitsBefore, Nat.div_div_eq_div_mul, Nat.reduceMul,
            Nat.add_comm 0x80]

/-- The bytes that begin a character outside ASCII, with the one behind them,
    are those of the codes that are complete with so many bytes. -/
theorem lead_spec {a : UInt8} {first : Lead} (h : lead a = some first) :
    ∃ tails, first.tails = tails + 1 ∧ ∀ (b : UInt8) (code : Nat),
      (first.low.toNat ≤ b.toNat ∧ b.toNat ≤ first.high.toNat) ∧
          bitsBefore code tails = 64 * first.bits + (b.toNat - 0x80) ↔
        code.isValidChar ∧ Leads a (tails + 1) code ∧
          b = UInt8.ofNat (0x80 + bitsBefore code tails % 64) := by
  have ha := a.toNat_lt
  unfold lead at h
  dsimp only at h
  -- One case for each row of the table. Its bounds on the next byte keep out the
  -- codes that have a shorter form, the surrogates, and what lies behind the last one.
  repeat' split at h
  all_goals simp only [reduceCtorEq, Option.some.injEq] at h
  all_goals
    subst h
    refine ⟨_, rfl, fun b code => ?_⟩
    have hb := b.toNat_lt
    simp only [← UInt8.toNat_inj, UInt8.toNat_ofNat', UInt8.reduceToNat, Leads, bitsBefore,
      true_and]
    omega

/-- The table knows the first byte of every character outside ASCII. -/
theorem exists_lead_of_leads {a : UInt8} {tails code : Nat} (h : Leads a tails code)
    (ha : 0x80 ≤ a.toNat) (hcode : code.isValidChar) :
    ∃ first, lead a = some first ∧ first.tails = tails := by
  unfold Leads at h
  unfold lead
  dsimp only
  repeat' split
  all_goals first | exact ⟨_, rfl, by dsimp only; omega⟩ | omega

/-- The bytes behind the first one complete exactly the codes that it begins. -/
theorem readTails_of_lead {a : UInt8} {first : Lead} (h : lead a = some first) {code : Nat}
    {rest : List UInt8} :
    readTails first.bits 1 first.low first.high first.tails rest = .ok code ↔
      code.isValidChar ∧ Leads a first.tails code ∧
        tailBytes code first.tails <+: rest := by
  obtain ⟨tails, htails, hspec⟩ := lead_spec h
  rw [htails]
  cases rest with
  | nil => exact iff_of_false nofun fun h => nomatch List.prefix_nil.1 h.2.2
  | cons b rest =>
    rw [readTails_succ, readTails_eq_ok_iff, ← and_assoc, hspec b code, tailBytes,
      List.cons_prefix_cons, and_assoc, and_assoc, eq_comm (a := b)]

/-- A character is read off the front of the bytes if they begin with its own. -/
theorem readChar_eq_ok_iff {a : UInt8} {rest : List UInt8} {c : Char} {n : Nat} :
    readChar a rest = .ok (c, n) ↔
      String.utf8EncodeChar c <+: a :: rest ∧ (String.utf8EncodeChar c).length = n + 1 := by
  obtain ⟨b, tails, hleads, hchar⟩ := exists_leads c
  rw [hchar, List.cons_prefix_cons, List.length_cons, length_tailBytes, Nat.add_right_cancel_iff]
  unfold readChar
  split
  · next hsmall =>
    have hsmall : a.toNat < 0x80 := UInt8.lt_iff_toNat_lt.1 hsmall
    rw [Except.ok.injEq, Prod.mk.injEq, charOfNat_eq_iff (.inl (by omega))]
    constructor
    · rintro ⟨hcode, rfl⟩
      obtain ⟨rfl, rfl⟩ := hleads.unique (.inl ⟨rfl, by omega, hcode.symm⟩)
      exact ⟨⟨rfl, List.nil_prefix⟩, rfl⟩
    · rintro ⟨⟨rfl, -⟩, rfl⟩
      unfold Leads at hleads
      omega
  · next hbig =>
    have hbig : 0x80 ≤ a.toNat := Nat.le_of_not_lt fun h => hbig (UInt8.lt_iff_toNat_lt.2 h)
    split
    · next hnone =>
      refine iff_of_false nofun ?_
      rintro ⟨⟨rfl, -⟩, -⟩
      obtain ⟨first, hsome, -⟩ := exists_lead_of_leads hleads hbig (isValidChar_toNat c)
      rw [hnone] at hsome
      cases hsome
    · next first hsome =>
      constructor
      · intro h
        obtain ⟨code, hread, heq⟩ := exists_of_map_eq_ok h
        obtain ⟨hcode, hfirst, htails⟩ := (readTails_of_lead hsome).1 hread
        obtain ⟨rfl, rfl⟩ := Prod.mk.inj heq
        rw [toNat_charOfNat hcode] at hleads ⊢
        obtain ⟨rfl, rfl⟩ := hleads.unique hfirst
        exact ⟨⟨rfl, htails⟩, rfl⟩
      · rintro ⟨⟨rfl, htails⟩, rfl⟩
        obtain ⟨found, hfound, rfl⟩ := exists_lead_of_leads hleads hbig (isValidChar_toNat c)
        obtain rfl := Option.some.inj (hsome.symm.trans hfound)
        rw [(readTails_of_lead hsome).2 ⟨isValidChar_toNat c, hleads, htails⟩, Except.map,
          Char.ofNat_toNat]

theorem encode_cons (c : Char) (text : List Char) :
    encode (c :: text) = String.utf8EncodeChar c ++ encode text := rfl

/-- Nothing is left out between a character that is read and the rest. -/
theorem cons_eq_of_readChar {a : UInt8} {rest : List UInt8} {c : Char} {n : Nat}
    (h : readChar a rest = .ok (c, n)) : a :: rest = String.utf8EncodeChar c ++ rest.drop n := by
  obtain ⟨⟨more, hmore⟩, hlength⟩ := readChar_eq_ok_iff.1 h
  have hdrop : (a :: rest).drop (n + 1) = more := by rw [← hmore, List.drop_left' hlength]
  rw [List.drop_succ_cons] at hdrop
  rw [hdrop, hmore]

/-- The bytes of a text that is not empty begin with its first character. -/
theorem readChar_of_encode {a : UInt8} {rest : List UInt8} {text : List Char}
    (h : a :: rest = encode text) :
    ∃ c n others, text = c :: others ∧ readChar a rest = .ok (c, n) ∧
      rest.drop n = encode others := by
  cases text with
  | nil => cases h
  | cons c others =>
    obtain ⟨b, tails, -, hchar⟩ := exists_leads c
    have hlength : (String.utf8EncodeChar c).length = tails + 1 := by
      rw [hchar, List.length_cons, length_tailBytes]
    have hread := readChar_eq_ok_iff.2 ⟨⟨encode others, h.symm⟩, hlength⟩
    refine ⟨c, tails, others, rfl, hread, ?_⟩
    exact List.append_cancel_left ((cons_eq_of_readChar hread).symm.trans h)

/-- Exactly the bytes of a text are decoded as that text. -/
theorem decodeFrom_eq_ok_iff {offset : Nat} {bytes : List UInt8} {text : List Char} :
    decodeFrom offset bytes = .ok text ↔ bytes = encode text := by
  have hfault : ∀ {a rest e} {text : List Char}, readChar a rest = .error e →
      a :: rest ≠ encode text := by
    intro a rest e text hread h
    obtain ⟨c, n, others, -, hok, -⟩ := readChar_of_encode h
    rw [hread] at hok
    cases hok
  fun_induction decodeFrom offset bytes generalizing text with
  | case1 =>
    cases text with
    | nil => exact iff_of_true rfl rfl
    | cons c others =>
      obtain ⟨b, tails, -, hchar⟩ := exists_leads c
      rw [encode_cons, hchar]
      exact iff_of_false nofun nofun
  | case2 _ _ _ _ hread => exact iff_of_false nofun (hfault hread)
  | case3 _ _ _ hread => exact iff_of_false nofun (hfault hread)
  | case4 offset a rest c n hread ih =>
    constructor
    · intro h
      obtain ⟨others, hothers, rfl⟩ := exists_of_map_eq_ok h
      rw [encode_cons, cons_eq_of_readChar hread, ih.1 hothers]
    · intro h
      obtain ⟨d, m, others, rfl, hok, hrest⟩ := readChar_of_encode h
      obtain ⟨rfl, rfl⟩ := Prod.mk.inj (Except.ok.inj (hread.symm.trans hok))
      rw [ih.2 hrest]
      rfl

theorem decode_eq_ok_iff {bytes : List UInt8} {text : List Char} :
    decode bytes = .ok text ↔ bytes = encode text :=
  decodeFrom_eq_ok_iff

end Utf8

end DeepScope
