import Mathlib.Data.Prod.Lex
import Mathlib.Data.String.Basic
import TreeQuery.Database.Comparison
import TreeQuery.Proofs.Text.Utf8
import TreeQuery.Proofs.Time.Calendar
import TreeQuery.Time.Stamp

/-!
# Times in the order of their texts

A moment is shown as numbers of fixed widths with marks between them, from the year down to the
microsecond (`text_eq_written`). Numbers of one width are ordered as their digits are
(`padded_lt_padded`), so rows of them are ordered as their texts are (`text_lt_text`), and a
later moment has a later row (`numbers_lt_numbers`).

This has an exception. A moment may be read in a leap second after any second. Behind the last
second of a minute there is room for one, but elsewhere it is shown as the second that follows, and
what it shows may be reached only later (`Overruns`).

**`Timestamp.sortsInTime_iff`**: texts of times are compared as the times are, exactly where neither
overruns the other.
-/

namespace TreeQuery

/-! ## Numbers of a fixed width -/

section

variable {w m n : Nat} {xs ys : List Char}

theorem append_lt_append (hlength : xs.length = ys.length) (h : xs < ys) (as bs : List Char) :
    xs ++ as < ys ++ bs := by
  induction h with
  | nil => cases hlength
  | cons _ ih => exact .cons (ih (Nat.succ.inj hlength))
  | rel h => exact .rel h

theorem digitChar_lt_digitChar (hn : n < 10) (h : m < n) : Nat.digitChar m < Nat.digitChar n := by
  have hall : ∀ n < 10, ∀ m < n, Nat.digitChar m < Nat.digitChar n := by decide
  exact hall n hn m h

theorem toList_padded (w n : Nat) : (padded w n).toList =
    List.replicate (w - (Nat.toDigits 10 n).length) '0' ++ Nat.toDigits 10 n := by
  simp [padded, String.length]

theorem length_padded (hw : 0 < w) (hn : n < 10 ^ w) : (padded w n).toList.length = w := by
  have hdigits := (Nat.length_toDigits_le_iff (by decide) hw).mpr hn
  rw [toList_padded, List.length_append, List.length_replicate, Nat.sub_add_cancel hdigits]

theorem toList_padded_one (h : n < 10) : (padded 1 n).toList = [Nat.digitChar n] := by
  rw [toList_padded, Nat.toDigits_of_lt_base h]
  rfl

theorem toList_padded_succ (hw : 0 < w) (n : Nat) :
    (padded (w + 1) n).toList = (padded w (n / 10)).toList ++ [Nat.digitChar (n % 10)] := by
  rw [toList_padded, toList_padded]
  rcases Nat.lt_or_ge n 10 with hn | hn
  · obtain ⟨w, rfl⟩ := Nat.exists_eq_succ_of_ne_zero hw.ne'
    have hzero : List.replicate w '0' ++ Nat.toDigits 10 0 = List.replicate (w + 1) '0' :=
      List.replicate_succ'.symm
    rw [Nat.toDigits_of_lt_base hn, Nat.div_eq_of_lt hn, Nat.mod_eq_of_lt hn]
    exact congrArg (· ++ [Nat.digitChar n]) hzero.symm
  · rw [Nat.toDigits_of_base_le (by decide) hn]
    simp

/-- **Numbers are ordered as their digits are.** -/
theorem padded_lt_padded (hw : 0 < w) (hn : n < 10 ^ w) (h : m < n) :
    (padded w m).toList < (padded w n).toList := by
  induction w, hw using Nat.le_induction generalizing m n with
  | base =>
    rw [toList_padded_one (h.trans hn), toList_padded_one hn]
    exact .rel (digitChar_lt_digitChar hn h)
  | succ w hw ih =>
    have hfront : n / 10 < 10 ^ w := by omega
    rw [toList_padded_succ hw, toList_padded_succ hw]
    rcases Nat.lt_or_ge (m / 10) (n / 10) with hlt | hge
    · have hlengths : (padded w (m / 10)).toList.length = (padded w (n / 10)).toList.length := by
        rw [length_padded hw (hlt.trans hfront), length_padded hw hfront]
      exact append_lt_append hlengths (ih hfront hlt) _ _
    · have heq : m / 10 = n / 10 := by omega
      rw [heq]
      have hlast : m % 10 < n % 10 := by omega
      exact List.Lex.append_left _ (.rel (digitChar_lt_digitChar (by omega) hlast)) _

/-! ## Rows of numbers -/

/-- Numbers with as many digits as they are given, and what follows each of them. -/
def written : List (Nat × String) → List Nat → String
  | (width, mark) :: fields, n :: ns => padded width n ++ mark ++ written fields ns
  | _, _ => ""

/-- A number has no more digits than it is given. -/
def HasWidth (field : Nat × String) (n : Nat) : Prop := 0 < field.1 ∧ n < 10 ^ field.1

/-- **Rows of numbers are ordered as they are written.** -/
theorem written_lt_written {fields : List (Nat × String)} {ns ns' : List Nat}
    (h : List.Forall₂ HasWidth fields ns) (h' : List.Forall₂ HasWidth fields ns')
    (hlt : ns < ns') : written fields ns < written fields ns' := by
  rw [String.lt_iff_toList_lt]
  induction hlt generalizing fields with
  | nil => cases h; cases h'
  | @cons n ns ns' _ ih =>
    cases h with
    | cons hn hns =>
      cases h' with
      | cons _ hns' =>
        simp only [written, String.toList_append]
        exact List.Lex.append_left _ (ih hns hns') _
  | @rel n ns n' ns' hlt =>
    cases h with
    | cons hn hns =>
      cases h' with
      | cons hn' _ =>
        simp only [written, String.toList_append, List.append_assoc]
        refine append_lt_append ?_ (padded_lt_padded hn.1 hn'.2 hlt) _ _
        rw [length_padded hn.1 hn.2, length_padded hn.1 hn'.2]

end

/-! ## Moments -/

namespace Timestamp

open Database

variable {t t' : Timestamp}

/-- **What a clock shows in the years from 0 to 9999**, leap seconds after any second included. -/
structure OnClock (t : Timestamp) : Prop where
  year_nonneg : 0 ≤ (Date.ofDays t.days).year
  year_le : (Date.ofDays t.days).year ≤ 9999
  nanos_lt : t.nanos < 2000000000

/-- **Which of two moments is the earlier**: a leap second is the end of the second before it. -/
def Earlier (t t' : Timestamp) : Prop :=
  t.seconds < t'.seconds ∨ t.seconds = t'.seconds ∧ t.nanos < t'.nanos

/-- A moment cut off to microseconds. -/
def truncated (t : Timestamp) : Timestamp := { t with nanos := t.nanos / 1000 * 1000 }

/-- **A leap second that runs past another moment**: it is not at the end of its minute, so it is
shown as the second that follows, and it shows as much of this second as the other moment or
more. -/
structure Overruns (t t' : Timestamp) : Prop where
  leap : 1000000000 ≤ t.nanos
  inside : t.seconds % 60 ≠ 59
  next : t'.seconds = t.seconds + 1
  reached : t'.nanos / 1000 + 1000000 ≤ t.nanos / 1000

/-- How the numbers of a moment are shown. -/
def fields : List (Nat × String) :=
  [(4, "-"), (2, "-"), (2, " "), (2, ":"), (2, ":"), (2, "."), (6, "")]

/-- The numbers of a moment. -/
def numbers (t : Timestamp) : List Nat :=
  let date := Date.ofDays t.days
  [date.year.toNat, date.month, date.day, t.secondOfDay / 3600, t.secondOfDay / 60 % 60, t.second,
    t.micros]

theorem text_eq_written (h : t.OnClock) : t.text = written fields t.numbers := by
  simp only [text, dateText, clockText, yearText, written, fields, numbers, String.append_assoc,
    if_pos (And.intro h.year_nonneg h.year_le), String.append_empty]

/-- The second of a moment in its day. -/
theorem seconds_eq (t : Timestamp) :
    t.seconds = 86400 * t.days + t.secondOfDay ∧ t.secondOfDay < 86400 := by
  unfold days secondOfDay daySeconds
  rw [Int.fdiv_eq_ediv_of_nonneg _ (by decide), Int.fmod_eq_emod_of_nonneg _ (by decide)]
  omega

theorem hasWidth_numbers (h : t.OnClock) : List.Forall₂ HasWidth fields t.numbers := by
  obtain ⟨hyear, hyear', hnanos⟩ := h
  obtain ⟨hmonth, hday⟩ := Date.ofDays_small t.days
  obtain ⟨-, hsecond⟩ := t.seconds_eq
  simp only [fields, numbers, second, micros, List.forall₂_cons, HasWidth]
  refine ⟨⟨?_, ?_⟩, ⟨?_, ?_⟩, ⟨?_, ?_⟩, ⟨?_, ?_⟩, ⟨?_, ?_⟩, ⟨?_, ?_⟩, ⟨?_, ?_⟩, .nil⟩ <;> omega

theorem numbers_lt_of_days_lt (h : t.OnClock) (hlt : t.days < t'.days) :
    t.numbers < t'.numbers := by
  have hkey := Date.key_ofDays_lt hlt
  have hyear := h.year_nonneg
  simp only [Date.key, Prod.Lex.toLex_lt_toLex] at hkey
  simp only [numbers, List.cons_lt_cons_iff]
  omega

/-- **A later moment has a later row of numbers**, unless it is overrun. -/
theorem numbers_lt_numbers (h : t.OnClock) (hlt : t.truncated.Earlier t'.truncated)
    (hclear : ¬ t.Overruns t') : t.numbers < t'.numbers := by
  obtain ⟨hseconds, hday⟩ := t.seconds_eq
  obtain ⟨hseconds', hday'⟩ := t'.seconds_eq
  have hnanos := h.nanos_lt
  have hclear' : 1000000000 ≤ t.nanos → t'.seconds = t.seconds + 1 → t.seconds % 60 = 59 ∨
      t.nanos / 1000 < t'.nanos / 1000 + 1000000 := by
    intro hleap hnext
    by_contra hover
    obtain ⟨hinside, hreached⟩ := not_or.mp hover
    exact hclear ⟨hleap, hinside, hnext, Nat.le_of_not_lt hreached⟩
  simp only [Earlier, truncated] at hlt
  rcases lt_trichotomy t.days t'.days with hdays | hdays | hdays
  · exact numbers_lt_of_days_lt h hdays
  · simp only [numbers, hdays, List.cons_lt_cons_iff, second, micros, lt_irrefl, true_and,
      false_or]
    omega
  · omega

/-- What overruns a moment does not have an earlier row. -/
theorem Overruns.numbers_le (hover : t.Overruns t') (h : t.OnClock) : t'.numbers ≤ t.numbers := by
  obtain ⟨hleap, hinside, hnext, hreached⟩ := hover
  obtain ⟨hseconds, hday⟩ := t.seconds_eq
  obtain ⟨hseconds', hday'⟩ := t'.seconds_eq
  have hnanos := h.nanos_lt
  have hdays : t'.days = t.days := by omega
  have hclock : t'.secondOfDay / 3600 = t.secondOfDay / 3600 ∧
      t'.secondOfDay / 60 % 60 = t.secondOfDay / 60 % 60 ∧ t'.second = t.second := by
    unfold second
    omega
  have hmicros : t'.micros ≤ t.micros := by
    unfold micros
    omega
  rcases hmicros.lt_or_eq with hlt | heq
  · refine le_of_lt ?_
    simp only [numbers, hdays, hclock, List.cons_lt_cons_iff, lt_irrefl, true_and, false_or]
    exact .inl hlt
  · simp [numbers, hdays, hclock, heq]

/-- Texts show no more than the microsecond. -/
theorem text_truncated (t : Timestamp) : t.truncated.text = t.text := by
  have hnanos : t.nanos / 1000 * 1000 / 1000000000 = t.nanos / 1000000000 ∧
      t.nanos / 1000 * 1000 % 1000000000 / 1000 = t.nanos % 1000000000 / 1000 := by
    omega
  simp only [text, dateText, clockText, second, micros, days, secondOfDay, truncated, hnanos]

theorem text_lt_text (h : t.OnClock) (h' : t'.OnClock) (hlt : t.numbers < t'.numbers) :
    t.text < t'.text := by
  rw [text_eq_written h, text_eq_written h']
  exact written_lt_written (hasWidth_numbers h) (hasWidth_numbers h') hlt

theorem text_le_text (h : t.OnClock) (h' : t'.OnClock) (hle : t.numbers ≤ t'.numbers) :
    t.text ≤ t'.text := by
  rcases hle.lt_or_eq with hlt | heq
  · exact (text_lt_text h h' hlt).le
  · rw [text_eq_written h, text_eq_written h', heq]

theorem earlier_trichotomy (t t' : Timestamp) : t.Earlier t' ∨ t = t' ∨ t'.Earlier t := by
  rcases t with ⟨s, n⟩
  rcases t' with ⟨s', n'⟩
  simp only [Earlier, mk.injEq]
  omega

/-- What a moment overruns comes after it. -/
theorem Overruns.earlier (hover : t.Overruns t') : t.truncated.Earlier t'.truncated := by
  obtain ⟨-, -, hnext, -⟩ := hover
  exact .inl (by simp only [truncated]; omega)

/-- **Texts in the order of time**, byte by byte and where the database compares them. -/
structure SortsInTime (t t' : Timestamp) : Prop where
  earlier : Text.encode t.text < Text.encode t'.text ↔ t.truncated.Earlier t'.truncated
  later : Text.encode t'.text < Text.encode t.text ↔ t'.truncated.Earlier t.truncated
  same : Text.encode t.text = Text.encode t'.text ↔ t.truncated = t'.truncated
  compared : (Value.text t.text).compare .binary (.text t'.text) = .lt ↔
    t.truncated.Earlier t'.truncated

/-- Where neither moment overruns the other, their texts are in order. -/
theorem sortsInTime (h : t.OnClock) (h' : t'.OnClock) (hclear : ¬ t.Overruns t')
    (hclear' : ¬ t'.Overruns t) : SortsInTime t t' := by
  have hearlier : t.truncated.Earlier t'.truncated → t.text < t'.text := fun hlt =>
    text_lt_text h h' (numbers_lt_numbers h hlt hclear)
  have hlater : t'.truncated.Earlier t.truncated → t'.text < t.text := fun hlt =>
    text_lt_text h' h (numbers_lt_numbers h' hlt hclear')
  have hsame : t.truncated = t'.truncated → t.text = t'.text := fun heq => by
    rw [← text_truncated t, heq, text_truncated]
  -- of three cases, each has its own order of the texts
  have hcases := earlier_trichotomy t.truncated t'.truncated
  have hlt : t.text < t'.text ↔ t.truncated.Earlier t'.truncated := by
    refine ⟨fun hlt => ?_, hearlier⟩
    rcases hcases with hbefore | heq | hafter
    · exact hbefore
    · exact absurd (hsame heq) hlt.ne
    · exact absurd (hlater hafter) hlt.asymm
  have hgt : t'.text < t.text ↔ t'.truncated.Earlier t.truncated := by
    refine ⟨fun hgt => ?_, hlater⟩
    rcases hcases with hbefore | heq | hafter
    · exact absurd (hearlier hbefore) hgt.asymm
    · exact absurd (hsame heq) hgt.ne'
    · exact hafter
  have heq : t.text = t'.text ↔ t.truncated = t'.truncated := by
    refine ⟨fun heq => ?_, hsame⟩
    rcases hcases with hbefore | htruncated | hafter
    · exact absurd heq (hearlier hbefore).ne
    · exact htruncated
    · exact absurd heq (hlater hafter).ne'
  exact ⟨Text.encode_lt_encode_iff.trans hlt, Text.encode_lt_encode_iff.trans hgt,
    Text.encode_inj.trans heq, compare_lt_iff_lt.trans hlt⟩

/-- A moment that overruns the other does not have the smaller text. -/
theorem Overruns.not_text_lt (hover : t.Overruns t') (h : t.OnClock) (h' : t'.OnClock) :
    ¬ Text.encode t.text < Text.encode t'.text := by
  rw [Text.encode_lt_encode_iff]
  exact (text_le_text h' h (hover.numbers_le h)).not_gt

/-- **Texts of times are in the order of the times**, and the same for times of one microsecond,
exactly where neither moment overruns the other. -/
theorem sortsInTime_iff (h : t.OnClock) (h' : t'.OnClock) :
    SortsInTime t t' ↔ ¬ t.Overruns t' ∧ ¬ t'.Overruns t := by
  constructor
  · rintro ⟨hearlier, hlater, -, -⟩
    exact ⟨fun hover => hover.not_text_lt h h' (hearlier.mpr hover.earlier),
      fun hover => hover.not_text_lt h' h (hlater.mpr hover.earlier)⟩
  · rintro ⟨hclear, hclear'⟩
    exact sortsInTime h h' hclear hclear'

/-- The last microsecond of the leap second at the end of 2016, cut off, comes before the first
moment of the year after it. -/
theorem sortsInTime_leap_second :
    (⟨1483228799, 1999999999⟩ : Timestamp).OnClock ∧ (⟨1483228800, 0⟩ : Timestamp).OnClock ∧
      (SortsInTime ⟨1483228799, 1999999999⟩ ⟨1483228800, 0⟩ ↔
        ¬ Overruns ⟨1483228799, 1999999999⟩ ⟨1483228800, 0⟩ ∧
          ¬ Overruns ⟨1483228800, 0⟩ ⟨1483228799, 1999999999⟩) ∧
      SortsInTime ⟨1483228799, 1999999999⟩ ⟨1483228800, 0⟩ ∧
      (⟨1483228799, 1999999999⟩ : Timestamp).text = "2016-12-31 23:59:60.999999" := by
  have hleap : (⟨1483228799, 1999999999⟩ : Timestamp).OnClock :=
    ⟨by decide, by decide, by decide⟩
  have hyear : (⟨1483228800, 0⟩ : Timestamp).OnClock := ⟨by decide, by decide, by decide⟩
  have hiff := sortsInTime_iff hleap hyear
  have hclear : ¬ Overruns ⟨1483228799, 1999999999⟩ ⟨1483228800, 0⟩ :=
    fun hover => hover.inside rfl
  have hclear' : ¬ Overruns ⟨1483228800, 0⟩ ⟨1483228799, 1999999999⟩ :=
    fun hover => absurd hover.leap (by decide)
  exact ⟨hleap, hyear, hiff, hiff.mpr ⟨hclear, hclear'⟩, by decide +kernel⟩

/-- **A leap second inside a minute is shown like a later moment.** -/
theorem not_sortsInTime_inside_minute :
    (⟨27, 1500000000⟩ : Timestamp).OnClock ∧ (⟨28, 500000000⟩ : Timestamp).OnClock ∧
      (⟨27, 1500000000⟩ : Timestamp).truncated.Earlier
        (⟨28, 500000000⟩ : Timestamp).truncated ∧
      (⟨27, 1500000000⟩ : Timestamp).text = "1970-01-01 00:00:28.500000" ∧
      (⟨28, 500000000⟩ : Timestamp).text = "1970-01-01 00:00:28.500000" ∧
      ¬ SortsInTime ⟨27, 1500000000⟩ ⟨28, 500000000⟩ := by
  have hfirst : (⟨27, 1500000000⟩ : Timestamp).text = "1970-01-01 00:00:28.500000" := by
    decide +kernel
  have hsecond : (⟨28, 500000000⟩ : Timestamp).text = "1970-01-01 00:00:28.500000" := by
    decide +kernel
  refine ⟨⟨by decide, by decide, by decide⟩, ⟨by decide, by decide, by decide⟩,
    .inl (by decide), hfirst, hsecond, fun hsorts => ?_⟩
  -- one text, but two times
  have heq := hsorts.same.mp (by rw [hfirst, hsecond])
  exact absurd heq (by decide)

end Timestamp

end TreeQuery
