import Mathlib.Algebra.Order.Field.Basic
import Mathlib.Data.List.Nodup
import Mathlib.Data.List.TakeWhile
import Mathlib.Data.Rat.Cast.Defs
import Jellybean.Framework.Json

namespace Jellybean.Json

variable {n k : Nat} {c : Char} {t r r' s raw name ds : List Char}

/-- A character that stands for itself in a string. -/
def plainChar (c : Char) : Bool := c ≠ '"' && c ≠ '\\' && 32 ≤ c.toNat

def Plain (s : List Char) : Prop := ∀ c ∈ s, plainChar c = true

/-- `raw` between quotes is the string `s`: either it is `s` itself, or it has an escape and is
longer. -/
def Quoted (raw s : List Char) : Prop :=
  (∀ c ∈ raw, 32 ≤ c.toNat) ∧ (raw = s ∧ Plain s ∨ '\\' ∈ raw ∧ s.length < raw.length)

theorem plainChar_iff : plainChar c = true ↔ c ≠ '"' ∧ c ≠ '\\' ∧ 32 ≤ c.toNat := by
  simp [plainChar, and_assoc]

theorem parseChars_plain (hs : Plain s) (hn : s.length < n) :
    parseChars n (s ++ '"' :: r) = some (s, r) := by
  induction s generalizing n with
  | nil =>
    obtain ⟨m, rfl⟩ := Nat.exists_eq_succ_of_ne_zero (Nat.ne_of_gt hn)
    rfl
  | cons c s ih =>
    obtain ⟨m, rfl⟩ := Nat.exists_eq_succ_of_ne_zero (Nat.ne_of_gt (Nat.zero_lt_of_lt hn))
    obtain ⟨hquote, hslash, hcontrol⟩ := plainChar_iff.mp (hs c List.mem_cons_self)
    have hrest : parseChars m (s ++ '"' :: r) = some (s, r) := by
      apply ih
      · intro d hd
        exact hs d (List.mem_cons_of_mem c hd)
      · exact Nat.lt_of_succ_lt_succ hn
    rw [List.cons_append, parseChars, if_neg hquote, if_neg hslash, if_neg (by omega), hrest]
    rfl

theorem parseString_plain (hs : Plain s) : parseString (s ++ '"' :: r) = some (s, r) := by
  apply parseChars_plain hs
  rw [List.length_append, List.length_cons]
  omega

/-- Nothing here belongs to a number. -/
def EndsNumber (r : List Char) : Prop :=
  ∃ c ∈ r.head?, c.isDigit = false ∧ c ≠ '.' ∧ c ≠ 'e' ∧ c ≠ 'E'

theorem digits_append (hds : ∀ c ∈ ds, c.isDigit = true) (hne : ds ≠ []) (hr : EndsNumber r) :
    digits (ds ++ r) = some (ds, r) := by
  obtain ⟨c, hc, hdigit, _⟩ := hr
  obtain ⟨r', rfl⟩ : ∃ r', r = c :: r' := by
    cases r with
    | nil => cases hc
    | cons d r' =>
      cases hc
      exact ⟨r', rfl⟩
  have htake : (ds ++ c :: r').takeWhile Char.isDigit = ds := by
    rw [List.takeWhile_append_of_pos hds, List.takeWhile_cons, hdigit]
    simp
  have hdrop : (ds ++ c :: r').dropWhile Char.isDigit = c :: r' := by
    rw [List.dropWhile_append_of_pos hds, List.dropWhile_cons, hdigit]
    simp
  unfold digits
  rw [htake, hdrop, if_neg hne]

theorem toDigits_head (hn : 0 < n) : (Nat.toDigits 10 n).head? ≠ some '0' := by
  induction n using Nat.strongRecOn with
  | _ n ih =>
    rw [Nat.toDigits_eq_if (by decide)]
    split_ifs with hlt
    · have hdigit : ∀ m < 10, 0 < m → Nat.digitChar m ≠ '0' := by decide
      intro h
      exact hdigit n hlt hn (Option.some.inj h)
    · rw [List.head?_append_of_ne_nil _ Nat.toDigits_ne_nil]
      exact ih (n / 10) (by omega) (by omega)

theorem toDigits_isDigit (n : Nat) : ∀ c ∈ Nat.toDigits 10 n, c.isDigit = true := by
  intro c hc
  exact Nat.isDigit_of_mem_toDigits (by decide) (by decide) hc

/-- A natural number as it is printed is read back. -/
theorem parseNumber_toDigits (n : Nat) (hr : EndsNumber r) :
    parseNumber (Nat.toDigits 10 n ++ r) = some ((n : ℚ), r) := by
  have hdigits := digits_append (toDigits_isDigit n) Nat.toDigits_ne_nil hr
  obtain ⟨c, hc, _, hpoint, he, hE⟩ := hr
  obtain ⟨r', rfl⟩ : ∃ r', r = c :: r' := by
    cases r with
    | nil => cases hc
    | cons d r' =>
      cases hc
      exact ⟨r', rfl⟩
  have hminus : minus (Nat.toDigits 10 n ++ c :: r') = (false, Nat.toDigits 10 n ++ c :: r') := by
    cases hds : Nat.toDigits 10 n with
    | nil => exact absurd hds Nat.toDigits_ne_nil
    | cons d ds =>
      have hd := toDigits_isDigit n d (hds ▸ List.mem_cons_self)
      unfold minus
      split
      next heq =>
        rw [List.cons_append, List.cons.injEq] at heq
        rw [heq.1] at hd
        cases hd
      next => rfl
  have hzero : ¬((Nat.toDigits 10 n).head? = some '0' ∧ 1 < (Nat.toDigits 10 n).length) := by
    intro h
    obtain ⟨hhead, hlen⟩ := h
    rcases Nat.eq_zero_or_pos n with hn | hn
    · subst hn
      simp at hlen
    · exact toDigits_head hn hhead
  have hfraction : fraction (c :: r') = some ([], c :: r') := by
    unfold fraction
    split
    next heq =>
      rw [List.cons.injEq] at heq
      exact absurd heq.1 hpoint
    next => rfl
  have hexponent : exponent (c :: r') = some (0, c :: r') := by
    unfold exponent
    exact if_neg (by simp [he, hE])
  unfold parseNumber
  rw [hminus, hdigits]
  simp only [Option.bind_eq_bind, Option.bind_some, if_neg hzero, hfraction, hexponent]
  rw [List.append_nil, Nat.ofDigitChars_toDigits (by decide) (by decide)]
  simp

theorem expect_eq (h : skipWs t = c :: r) : expect c t = some r := by
  unfold expect
  rw [h]
  exact if_pos rfl

theorem expect_none {d : Char} (h : skipWs t = d :: r) (hne : d ≠ c) : expect c t = none := by
  unfold expect
  rw [h]
  exact if_neg hne

theorem skipWs_cons (hc : isWs c = true) (t : List Char) : skipWs (c :: t) = skipWs t := by
  unfold skipWs
  rw [List.dropWhile_cons, if_pos hc]

theorem parseMembers_skip (hc : isWs c = true) (t : List Char) :
    parseMembers n (c :: t) = parseMembers n t := by
  have hexpect : expect '"' (c :: t) = expect '"' t := by
    unfold expect
    rw [skipWs_cons hc]
  cases n with
  | zero => rfl
  | succ n => rw [parseMembers, parseMembers, hexpect]

theorem parseValue_number (h : skipWs t = Nat.toDigits 10 k ++ r) (hr : EndsNumber r) :
    parseValue (n + 1) t = some (.number k, r) := by
  have hnumber := parseNumber_toDigits k hr
  cases hds : Nat.toDigits 10 k with
  | nil => exact absurd hds Nat.toDigits_ne_nil
  | cons d ds =>
    rw [hds, List.cons_append] at h hnumber
    have hd := toDigits_isDigit k d (hds ▸ List.mem_cons_self)
    have hother : ∀ c : Char, c.isDigit = false → d ≠ c := by
      intro c hc he
      rw [he, hc] at hd
      cases hd
    rw [parseValue, h]
    simp only [hother '{' rfl, hother '[' rfl, hother '"' rfl, hother 't' rfl, hother 'f' rfl,
      hother 'n' rfl, if_false, hnumber]
    rfl

theorem parseValue_object (ht : skipWs t = '{' :: r) (hr : skipWs r = '"' :: r') :
    parseValue (n + 1) t = (parseMembers n r).map fun x => (.object x.1, x.2) := by
  rw [parseValue, ht]
  simp only [if_true]
  rw [expect_none hr (by decide)]
  cases parseMembers n r <;> rfl

section Members

variable {v : Value} {vt : List Char} (ht : skipWs t = '"' :: (name ++ '"' :: ':' :: vt))
  (hname : Plain name) (hv : parseValue n vt = some (v, r))
include ht hname hv

theorem parseMembers_comma (hr : skipWs r = ',' :: r') :
    parseMembers (n + 1) t = (parseMembers n r').map fun x => ((name, v) :: x.1, x.2) := by
  have hcolon : expect ':' (':' :: vt) = some vt := expect_eq rfl
  rw [parseMembers, expect_eq ht]
  simp only [Option.bind_eq_bind, Option.bind_some, parseString_plain hname, hcolon, hv,
    expect_eq hr]
  cases parseMembers n r' <;> rfl

theorem parseMembers_close (hr : skipWs r = '}' :: r') :
    parseMembers (n + 1) t = some ([(name, v)], r') := by
  have hcolon : expect ':' (':' :: vt) = some vt := expect_eq rfl
  rw [parseMembers, expect_eq ht]
  simp only [Option.bind_eq_bind, Option.bind_some, parseString_plain hname, hcolon, hv,
    expect_none hr (by decide : '}' ≠ ','), expect_eq hr]

end Members

theorem skipWs_suffix (t : List Char) : skipWs t <:+ t := List.dropWhile_suffix _

theorem expect_suffix (h : expect c t = some r) : c :: r <:+ t := by
  unfold expect at h
  cases hs : skipWs t with
  | nil =>
    rw [hs] at h
    cases h
  | cons d r' =>
    rw [hs] at h
    dsimp only at h
    split_ifs at h with hd
    cases h
    rw [← hd, ← hs]
    exact skipWs_suffix t

theorem hexDigit_ge (h : hexDigit c = some k) : 32 ≤ c.toNat := by
  unfold hexDigit at h
  split_ifs at h with h1 h2 h3
  · rw [Char.isDigit] at h1
    simp only [Bool.and_eq_true, decide_eq_true_eq, UInt32.le_iff_toNat_le] at h1
    exact (by decide : 32 ≤ 48).trans h1.1
  · exact (by decide : 32 ≤ 97).trans h2.1
  · exact (by decide : 32 ≤ 65).trans h3.1

/-- The characters of an escape, none of them a control character. -/
theorem codeUnit_prefix (h : codeUnit t = some (k, r)) :
    ∃ e, t = e ++ r ∧ ∀ c ∈ e, 32 ≤ c.toNat := by
  unfold codeUnit at h
  split at h
  next a b c d rest =>
    simp only [Option.bind_eq_bind, Option.bind_eq_some_iff, Option.some.injEq, Prod.mk.injEq] at h
    obtain ⟨_, ha, _, hb, _, hc, _, hd, _, rfl⟩ := h
    refine ⟨[a, b, c, d], rfl, ?_⟩
    intro x hx
    simp only [List.mem_cons, List.not_mem_nil, or_false] at hx
    obtain rfl | rfl | rfl | rfl := hx
    · exact hexDigit_ge ha
    · exact hexDigit_ge hb
    · exact hexDigit_ge hc
    · exact hexDigit_ge hd
  next => cases h

theorem unicodeEscape_prefix (h : unicodeEscape t = some (c, r)) :
    ∃ e, t = e ++ r ∧ ∀ c ∈ e, 32 ≤ c.toNat := by
  unfold unicodeEscape at h
  simp only [Option.bind_eq_bind, Option.bind_eq_some_iff, Prod.exists] at h
  obtain ⟨high, r₁, hhigh, h⟩ := h
  obtain ⟨e, rfl, he⟩ := codeUnit_prefix hhigh
  split_ifs at h with hplane hlow
  · cases h
    exact ⟨e, rfl, he⟩
  · split at h
    next r₂ =>
      simp only [Option.bind_eq_some_iff, Prod.exists] at h
      obtain ⟨low, r₃, hlow', h⟩ := h
      obtain ⟨e', rfl, he'⟩ := codeUnit_prefix hlow'
      split_ifs at h
      simp only [Option.some.injEq, Prod.mk.injEq] at h
      obtain ⟨_, rfl⟩ := h
      refine ⟨e ++ '\\' :: 'u' :: e', by simp, ?_⟩
      intro x hx
      simp only [List.mem_append, List.mem_cons] at hx
      obtain hx | rfl | rfl | hx := hx
      · exact he x hx
      · decide
      · decide
      · exact he' x hx
    next => cases h

theorem escape_prefix (h : escape t = some (c, r)) :
    ∃ d e, t = d :: e ++ r ∧ ∀ x ∈ d :: e, 32 ≤ x.toNat := by
  cases t with
  | nil => cases h
  | cons d t =>
    unfold escape at h
    dsimp only at h
    have hone : (t = r ∧ 32 ≤ d.toNat) → ∃ d' e, d :: t = d' :: e ++ r ∧ ∀ x ∈ d' :: e, 32 ≤ x.toNat := by
      intro hd
      refine ⟨d, [], by rw [hd.1]; rfl, ?_⟩
      intro x hx
      rw [List.mem_singleton.mp hx]
      exact hd.2
    split_ifs at h with h1 h2 h3 h4 h5 h6 h7
    · cases h
      apply hone
      obtain rfl | rfl | rfl := h1
      · exact ⟨rfl, by decide⟩
      · exact ⟨rfl, by decide⟩
      · exact ⟨rfl, by decide⟩
    · cases h
      exact hone ⟨rfl, h2 ▸ by decide⟩
    · cases h
      exact hone ⟨rfl, h3 ▸ by decide⟩
    · cases h
      exact hone ⟨rfl, h4 ▸ by decide⟩
    · cases h
      exact hone ⟨rfl, h5 ▸ by decide⟩
    · cases h
      exact hone ⟨rfl, h6 ▸ by decide⟩
    · obtain ⟨e, rfl, he⟩ := unicodeEscape_prefix h
      refine ⟨d, e, rfl, ?_⟩
      intro x hx
      rcases List.mem_cons.mp hx with hx | hx
      · rw [hx, h7]
        decide
      · exact he x hx

theorem Quoted.cons_plain (h : Quoted raw s) (hc : plainChar c = true) : Quoted (c :: raw) (c :: s) := by
  obtain ⟨hall, hcases⟩ := h
  have hge := (plainChar_iff.mp hc).2.2
  refine ⟨?_, ?_⟩
  · intro x hx
    rcases List.mem_cons.mp hx with hx | hx
    · rw [hx]
      exact hge
    · exact hall x hx
  · rcases hcases with hcases | hcases
    · obtain ⟨rfl, hplain⟩ := hcases
      refine .inl ⟨rfl, ?_⟩
      intro x hx
      rcases List.mem_cons.mp hx with hx | hx
      · rw [hx]
        exact hc
      · exact hplain x hx
    · refine .inr ⟨List.mem_cons_of_mem c hcases.1, ?_⟩
      simp only [List.length_cons]
      omega

theorem Quoted.length_le (h : Quoted raw s) : s.length ≤ raw.length := by
  rcases h.2 with hcases | hcases
  · rw [hcases.1]
  · exact hcases.2.le

theorem Quoted.cons_escape {d : Char} {e : List Char} (h : Quoted raw s)
    (he : ∀ x ∈ d :: e, 32 ≤ x.toNat) : Quoted ('\\' :: d :: e ++ raw) (c :: s) := by
  have hle := h.length_le
  refine ⟨?_, .inr ⟨by simp, ?_⟩⟩
  · intro x hx
    rw [List.cons_append, List.mem_cons, List.mem_append] at hx
    obtain rfl | hx | hx := hx
    · decide
    · exact he x hx
    · exact h.1 x hx
  · simp only [List.length_append, List.length_cons]
    omega

theorem parseChars_quoted (h : parseChars n t = some (s, r)) :
    ∃ raw, t = raw ++ '"' :: r ∧ Quoted raw s := by
  induction n generalizing t s with
  | zero => cases h
  | succ n ih =>
    cases t with
    | nil => cases h
    | cons c t =>
      rw [parseChars] at h
      split_ifs at h with hquote hslash hcontrol
      · cases h
        exact ⟨[], by rw [hquote]; rfl, by simp [Quoted, Plain]⟩
      · simp only [Option.bind_eq_bind, Option.bind_eq_some_iff, Prod.exists] at h
        obtain ⟨d, r₁, hescape, s', r₂, hrest, h⟩ := h
        cases h
        obtain ⟨x, e, rfl, he⟩ := escape_prefix hescape
        obtain ⟨raw, rfl, hraw⟩ := ih hrest
        exact ⟨'\\' :: x :: e ++ raw, by rw [hslash]; simp, hraw.cons_escape he⟩
      · simp only [Option.bind_eq_bind, Option.bind_eq_some_iff, Prod.exists] at h
        obtain ⟨s', r₂, hrest, h⟩ := h
        cases h
        obtain ⟨raw, rfl, hraw⟩ := ih hrest
        exact ⟨c :: raw, rfl, hraw.cons_plain (plainChar_iff.mpr ⟨hquote, hslash, by omega⟩)⟩

theorem parseString_quoted (h : parseString t = some (s, r)) :
    ∃ raw, t = raw ++ '"' :: r ∧ Quoted raw s := parseChars_quoted h

theorem parseString_suffix (h : parseString t = some (s, r)) : r <:+ t := by
  obtain ⟨raw, rfl, _⟩ := parseString_quoted h
  exact (List.suffix_cons '"' r).trans (List.suffix_append raw _)

theorem digits_suffix (h : digits t = some (ds, r)) : r <:+ t := by
  unfold digits at h
  split_ifs at h
  cases h
  exact List.dropWhile_suffix _

theorem fraction_suffix (h : fraction t = some (ds, r)) : r <:+ t := by
  unfold fraction at h
  split at h
  next r₁ => exact (digits_suffix h).trans (List.suffix_cons '.' r₁)
  next =>
    cases h
    exact List.suffix_refl _

theorem exponentSign_suffix (t : List Char) : (exponentSign t).2 <:+ t := by
  unfold exponentSign
  split
  · exact List.suffix_cons '-' _
  · exact List.suffix_cons '+' _
  · exact List.suffix_refl _

theorem exponent_suffix {e : ℤ} (h : exponent t = some (e, r)) : r <:+ t := by
  unfold exponent at h
  split at h
  next =>
    cases h
    exact List.suffix_refl _
  next c r₁ =>
    by_cases hc : c = 'e' ∨ c = 'E'
    · rw [if_pos hc] at h
      simp only [Option.bind_eq_bind, Option.bind_eq_some_iff, Prod.exists, Option.some.injEq,
        Prod.mk.injEq] at h
      obtain ⟨ds, rest, hds, _, rfl⟩ := h
      exact ((digits_suffix hds).trans (exponentSign_suffix r₁)).trans (List.suffix_cons c r₁)
    · rw [if_neg hc] at h
      cases h
      exact List.suffix_refl _

theorem minus_suffix (t : List Char) : (minus t).2 <:+ t := by
  unfold minus
  split
  · exact List.suffix_cons '-' _
  · exact List.suffix_refl _

theorem parseNumber_suffix {q : ℚ} (h : parseNumber t = some (q, r)) : r <:+ t := by
  unfold parseNumber at h
  simp only [Option.bind_eq_bind, Option.bind_eq_some_iff, Prod.exists] at h
  obtain ⟨ds, r₁, hds, h⟩ := h
  by_cases hz : ds.head? = some '0' ∧ 1 < ds.length
  · rw [if_pos hz] at h
    cases h
  rw [if_neg hz] at h
  simp only [Option.bind_eq_some_iff, Prod.exists, Option.some.injEq, Prod.mk.injEq] at h
  obtain ⟨fs, r₂, hfs, e, r₃, he, _, rfl⟩ := h
  exact (exponent_suffix he).trans
    ((fraction_suffix hfs).trans ((digits_suffix hds).trans (minus_suffix t)))

theorem literal_suffix {word : List Char} {u v : Value} (h : literal word u t = some (v, r)) :
    r <:+ t := by
  unfold literal at h
  split_ifs at h
  cases h
  exact List.drop_suffix _ _

/-- The parsers read on from where the text begins. -/
structure ReadOn (n : Nat) : Prop where
  value : ∀ {t v r}, parseValue n t = some (v, r) → r <:+ t
  members : ∀ {t ms r}, parseMembers n t = some (ms, r) → r <:+ t
  elements : ∀ {t vs r}, parseElements n t = some (vs, r) → r <:+ t

theorem expect_tail (h : expect c t = some r) : r <:+ t :=
  (List.suffix_cons c r).trans (expect_suffix h)

theorem ReadOn.value_succ (ih : ReadOn n) {v : Value} (h : parseValue (n + 1) t = some (v, r)) :
    r <:+ t := by
  rw [parseValue] at h
  cases hs : skipWs t with
  | nil =>
    rw [hs] at h
    cases h
  | cons c r₁ =>
    have hr₁ : r₁ <:+ t := (List.suffix_cons c r₁).trans (hs ▸ skipWs_suffix t)
    rw [hs] at h
    dsimp only at h
    split_ifs at h
    · cases he : expect '}' r₁ with
      | some r₂ =>
        rw [he] at h
        cases h
        exact (expect_tail he).trans hr₁
      | none =>
        rw [he] at h
        simp only [Option.bind_eq_bind, Option.bind_eq_some_iff, Prod.exists] at h
        obtain ⟨ms, r₂, hms, h⟩ := h
        cases h
        exact (ih.members hms).trans hr₁
    · cases he : expect ']' r₁ with
      | some r₂ =>
        rw [he] at h
        cases h
        exact (expect_tail he).trans hr₁
      | none =>
        rw [he] at h
        simp only [Option.bind_eq_bind, Option.bind_eq_some_iff, Prod.exists] at h
        obtain ⟨vs, r₂, hvs, h⟩ := h
        cases h
        exact (ih.elements hvs).trans hr₁
    · simp only [Option.bind_eq_bind, Option.bind_eq_some_iff, Prod.exists] at h
      obtain ⟨s, r₂, hs, h⟩ := h
      cases h
      exact (parseString_suffix hs).trans hr₁
    · exact (literal_suffix h).trans hr₁
    · exact (literal_suffix h).trans hr₁
    · exact (literal_suffix h).trans hr₁
    · simp only [Option.bind_eq_bind, Option.bind_eq_some_iff, Prod.exists] at h
      obtain ⟨q, r₂, hq, h⟩ := h
      cases h
      have hall := parseNumber_suffix hq
      rw [← hs] at hall
      exact hall.trans (skipWs_suffix t)

/-- A list of members is a first one and, behind a comma, the others. -/
theorem parseMembers_cases {ms : List (List Char × Value)}
    (h : parseMembers (n + 1) t = some (ms, r)) : ∃ name v r₁ r₂ r₃ r₄,
      expect '"' t = some r₁ ∧ parseString r₁ = some (name, r₂) ∧ expect ':' r₂ = some r₃ ∧
      parseValue n r₃ = some (v, r₄) ∧
      ((∃ r₅ rest, expect ',' r₄ = some r₅ ∧ parseMembers n r₅ = some (rest, r) ∧
          ms = (name, v) :: rest) ∨
        (expect '}' r₄ = some r ∧ ms = [(name, v)])) := by
  rw [parseMembers] at h
  simp only [Option.bind_eq_bind, Option.bind_eq_some_iff, Prod.exists] at h
  obtain ⟨r₁, h₁, name, r₂, h₂, r₃, h₃, v, r₄, h₄, h⟩ := h
  refine ⟨name, v, r₁, r₂, r₃, r₄, h₁, h₂, h₃, h₄, ?_⟩
  cases he : expect ',' r₄ with
  | some r₅ =>
    rw [he] at h
    simp only [Option.bind_eq_some_iff, Prod.exists] at h
    obtain ⟨rest, r₆, hrest, h⟩ := h
    cases h
    exact .inl ⟨r₅, rest, rfl, hrest, rfl⟩
  | none =>
    rw [he] at h
    simp only [Option.bind_eq_some_iff] at h
    obtain ⟨r₅, hclose, h⟩ := h
    cases h
    exact .inr ⟨hclose, rfl⟩

theorem ReadOn.members_succ (ih : ReadOn n) {ms : List (List Char × Value)}
    (h : parseMembers (n + 1) t = some (ms, r)) : r <:+ t := by
  obtain ⟨name, v, r₁, r₂, r₃, r₄, h₁, h₂, h₃, h₄, hcases⟩ := parseMembers_cases h
  have hr₄ : r₄ <:+ t := (ih.value h₄).trans
    ((expect_tail h₃).trans ((parseString_suffix h₂).trans (expect_tail h₁)))
  rcases hcases with hc | hc
  · obtain ⟨r₅, rest, h₅, h₆, _⟩ := hc
    exact ((ih.members h₆).trans (expect_tail h₅)).trans hr₄
  · exact (expect_tail hc.1).trans hr₄

theorem ReadOn.elements_succ (ih : ReadOn n) {vs : List Value}
    (h : parseElements (n + 1) t = some (vs, r)) : r <:+ t := by
  rw [parseElements] at h
  simp only [Option.bind_eq_bind, Option.bind_eq_some_iff, Prod.exists] at h
  obtain ⟨v, r₁, hv, h⟩ := h
  cases he : expect ',' r₁ with
  | some r₂ =>
    rw [he] at h
    simp only [Option.bind_eq_some_iff, Prod.exists] at h
    obtain ⟨rest, r₃, hrest, h⟩ := h
    cases h
    exact ((ih.elements hrest).trans (expect_tail he)).trans (ih.value hv)
  | none =>
    rw [he] at h
    simp only [Option.bind_eq_some_iff] at h
    obtain ⟨r₂, hclose, h⟩ := h
    cases h
    exact (expect_tail hclose).trans (ih.value hv)

theorem readOn (n : Nat) : ReadOn n := by
  induction n with
  | zero =>
    refine ⟨?_, ?_, ?_⟩
    · intro t v r h
      cases h
    · intro t ms r h
      cases h
    · intro t vs r h
      cases h
  | succ n ih => exact ⟨ih.value_succ, ih.members_succ, ih.elements_succ⟩

/-- Every name of a member stands quoted in the text. -/
theorem parseMembers_quoted {ms : List (List Char × Value)} (h : parseMembers n t = some (ms, r)) :
    ∀ m ∈ ms, ∃ raw, Quoted raw m.1 ∧ '"' :: raw ++ ['"'] <:+: t := by
  induction n generalizing t ms with
  | zero => cases h
  | succ n ih =>
    obtain ⟨name, v, r₁, r₂, r₃, r₄, h₁, h₂, h₃, h₄, hcases⟩ := parseMembers_cases h
    have hfirst : ∃ raw, Quoted raw name ∧ '"' :: raw ++ ['"'] <:+: t := by
      obtain ⟨raw, hraw, hquoted⟩ := parseString_quoted h₂
      refine ⟨raw, hquoted, ?_⟩
      have hstart := expect_suffix h₁
      rw [hraw] at hstart
      obtain ⟨w, hw⟩ := hstart
      exact ⟨w, r₂, by rw [← hw]; simp⟩
    intro m hm
    rcases hcases with hc | hc
    · obtain ⟨r₅, rest, h₅, h₆, rfl⟩ := hc
      rcases List.mem_cons.mp hm with hm | hm
      · rw [hm]
        exact hfirst
      · obtain ⟨raw, hquoted, hin⟩ := ih h₆ m hm
        have hr₅ : r₅ <:+ t := (expect_tail h₅).trans (((readOn n).value h₄).trans
          ((expect_tail h₃).trans ((parseString_suffix h₂).trans (expect_tail h₁))))
        exact ⟨raw, hquoted, hin.trans hr₅.isInfix⟩
    · obtain ⟨_, rfl⟩ := hc
      rw [List.mem_singleton.mp hm]
      exact hfirst

theorem literal_eq {word : List Char} {u v : Value} (h : literal word u t = some (v, r)) : v = u := by
  unfold literal at h
  split_ifs at h
  cases h
  rfl

/-- What is an object was read as members. -/
theorem parseValue_object_cases {ms : List (List Char × Value)}
    (h : parseValue (n + 1) t = some (.object ms, r)) :
    ms = [] ∨ ∃ r₁, r₁ <:+ t ∧ parseMembers n r₁ = some (ms, r) := by
  rw [parseValue] at h
  cases hs : skipWs t with
  | nil =>
    rw [hs] at h
    cases h
  | cons c r₁ =>
    have hr₁ : r₁ <:+ t := (List.suffix_cons c r₁).trans (hs ▸ skipWs_suffix t)
    rw [hs] at h
    dsimp only at h
    split_ifs at h
    · cases he : expect '}' r₁ with
      | some r₂ =>
        rw [he] at h
        cases h
        exact .inl rfl
      | none =>
        rw [he] at h
        simp only [Option.bind_eq_bind, Option.bind_eq_some_iff, Prod.exists] at h
        obtain ⟨ms', r₂, hms, h⟩ := h
        cases h
        exact .inr ⟨r₁, hr₁, hms⟩
    · cases he : expect ']' r₁ with
      | some r₂ =>
        rw [he] at h
        cases h
      | none =>
        rw [he] at h
        simp only [Option.bind_eq_bind, Option.bind_eq_some_iff, Prod.exists] at h
        obtain ⟨vs, r₂, _, h⟩ := h
        cases h
    · simp only [Option.bind_eq_bind, Option.bind_eq_some_iff, Prod.exists] at h
      obtain ⟨s, r₂, _, h⟩ := h
      cases h
    · cases literal_eq h
    · cases literal_eq h
    · cases literal_eq h
    · simp only [Option.bind_eq_bind, Option.bind_eq_some_iff, Prod.exists] at h
      obtain ⟨q, r₂, _, h⟩ := h
      cases h

/-- Every name of a member of the object that a text is stands quoted in it. -/
theorem parse_quoted {ms : List (List Char × Value)} (h : parse t = some (.object ms)) :
    ∀ m ∈ ms, ∃ raw, Quoted raw m.1 ∧ '"' :: raw ++ ['"'] <:+: t := by
  unfold parse at h
  simp only [Option.bind_eq_bind, Option.bind_eq_some_iff, Prod.exists] at h
  obtain ⟨v, r, hv, h⟩ := h
  split_ifs at h
  cases h
  intro m hm
  rcases parseValue_object_cases hv with hcase | hcase
  · rw [hcase] at hm
    cases hm
  · obtain ⟨r₁, hr₁, hms⟩ := hcase
    obtain ⟨raw, hquoted, hin⟩ := parseMembers_quoted hms m hm
    exact ⟨raw, hquoted, hin.trans hr₁.isInfix⟩

theorem get_of_nodup {ms : List (List Char × Value)} {v : Value} (h : (ms.map Prod.fst).Nodup)
    (hm : (name, v) ∈ ms) : get ms name = some v := by
  unfold get
  cases hf : ms.reverse.find? fun m => m.1 = name with
  | none =>
    rw [List.find?_eq_none] at hf
    exact absurd (hf (name, v) (List.mem_reverse.mpr hm)) (by simp)
  | some x =>
    have hx := List.mem_reverse.mp (List.mem_of_find?_eq_some hf)
    have hname : x.1 = name := by simpa using List.find?_some hf
    rw [List.inj_on_of_nodup_map h hx hm hname]
    rfl

end Jellybean.Json
