import Warehouse.Text.Bytes
import Mathlib.Data.UInt
import Mathlib.Tactic.NormNum

/-!
# UTF-8

* `Utf8`                 the bytes are characters, each in its encoding;
* `encode_cases`         an encoding is one byte below 128, or has only bytes from 128 on;
* `Utf8.cut`             so a text may be cut at each such byte;
* `Utf8.drop_bom`        and behind a byte order mark.
-/

namespace Text

def Utf8 (b : Bytes) : Prop := ∃ cs : List Char, b = cs.flatMap String.utf8EncodeChar

theorem utf8_nil : Utf8 [] := ⟨[], rfl⟩

theorem utf8_encode (cs : List Char) : Utf8 (cs.flatMap String.utf8EncodeChar) := ⟨cs, rfl⟩

theorem Utf8.append {a b : Bytes} (ha : Utf8 a) (hb : Utf8 b) : Utf8 (a ++ b) := by
  obtain ⟨cs, rfl⟩ := ha
  obtain ⟨ds, rfl⟩ := hb
  exact ⟨cs ++ ds, List.flatMap_append.symm⟩

theorem utf8_char (ch : Char) : Utf8 (String.utf8EncodeChar ch) :=
  ⟨[ch], (List.flatMap_singleton ..).symm⟩

theorem toNat_ofNat {n : ℕ} (h : n.isValidChar) : (Char.ofNat n).val.toNat = n := by
  unfold Char.ofNat
  rw [dif_pos h]
  rfl

/-- ASCII is its own encoding -/
theorem encode_ascii {c : UInt8} (h : c < 128) :
    String.utf8EncodeChar (Char.ofNat c.toNat) = [c] := by
  have hc : c.toNat < 128 := UInt8.lt_iff_toNat_lt.mp h
  have hval : (Char.ofNat c.toNat).val.toNat = c.toNat :=
    toNat_ofNat (Or.inl (by omega))
  unfold String.utf8EncodeChar
  simp only [hval]
  rw [if_pos (by omega), UInt8.ofNat_toNat]

theorem utf8_singleton {c : UInt8} (h : c < 128) : Utf8 [c] := encode_ascii h ▸ utf8_char _

theorem utf8_of_ascii {b : Bytes} (h : ∀ c ∈ b, c < 128) : Utf8 b := by
  induction b with
  | nil => exact utf8_nil
  | cons c b ih =>
    apply (utf8_singleton (h c (List.mem_cons_self ..))).append
    exact ih fun x hx => h x (List.mem_cons_of_mem _ hx)

/-- by evaluation, for a text that is given -/
theorem ascii_of_all {b : Bytes} (h : b.all (fun c => c < 128) = true) : ∀ c ∈ b, c < 128 :=
  fun c hc => of_decide_eq_true (List.all_eq_true.mp h c hc)

theorem encode_cases (ch : Char) :
    (∃ c, c < 128 ∧ String.utf8EncodeChar ch = [c] ∧ ch = Char.ofNat c.toNat) ∨
      ∀ c ∈ String.utf8EncodeChar ch, ¬ c < 128 := by
  have hbig : ∀ n, 128 ≤ n → n < 256 → ¬ UInt8.ofNat n < 128 := fun n h h' hlt => by
    have := UInt8.lt_iff_toNat_lt.mp hlt
    rw [UInt8.toNat_ofNat_of_lt' h'] at this
    exact absurd this (not_lt.mpr h)
  have hch : ch = Char.ofNat ch.val.toNat := (Char.ofNat_toNat ch).symm
  unfold String.utf8EncodeChar
  simp only
  generalize ch.val.toNat = v at hch
  split_ifs with h1 h2 h3
  · have hv : (UInt8.ofNat v).toNat = v := UInt8.toNat_ofNat_of_lt' (show v < 256 by omega)
    refine Or.inl ⟨_, UInt8.lt_iff_toNat_lt.mpr ?_, rfl, by rw [hv]; exact hch⟩
    rw [hv]
    exact Nat.lt_succ_of_le h1
  all_goals
    refine Or.inr fun c hc => ?_
    simp only [List.mem_cons, List.not_mem_nil, or_false] at hc
  · rcases hc with rfl | rfl <;> exact hbig _ (by omega) (by omega)
  · rcases hc with rfl | rfl | rfl <;> exact hbig _ (by omega) (by omega)
  · rcases hc with rfl | rfl | rfl | rfl <;> exact hbig _ (by omega) (by omega)

/-- **A cut.**  What stands before and behind a byte below 128 are texts. -/
theorem Utf8.cut {a b : Bytes} {c : UInt8} (h : Utf8 (a ++ c :: b)) (hc : c < 128) :
    Utf8 a ∧ Utf8 b := by
  obtain ⟨cs, h⟩ := h
  induction cs generalizing a with
  | nil => cases a <;> cases h
  | cons ch cs ih =>
    rw [List.flatMap_cons] at h
    rcases List.append_eq_append_iff.mp h with ⟨a', ha, hrest⟩ | ⟨a', ha, hrest⟩
    · cases a' with
      | nil =>
        rw [List.append_nil] at ha
        rw [List.nil_append] at hrest
        rw [← ha]
        exact ⟨utf8_char ch, (ih (a := []) hrest).2⟩
      | cons x a' =>
        obtain ⟨rfl, hb⟩ := List.cons.inj hrest
        rcases encode_cases ch with ⟨y, -, he, -⟩ | hbig
        · rw [he] at ha
          cases a with
          | nil =>
            obtain ⟨-, ha'⟩ := List.cons.inj ha
            rw [hb, ← ha']
            exact ⟨utf8_nil, utf8_encode cs⟩
          | cons z a =>
            obtain ⟨-, ha'⟩ := List.cons.inj ha
            exact absurd ha'.symm (by simp)
        · exact absurd hc (hbig c (ha ▸ List.mem_append_right _ (List.mem_cons_self ..)))
    · obtain ⟨ha', hb⟩ := ih hrest.symm
      rw [ha]
      exact ⟨(utf8_char ch).append ha', hb⟩

theorem Utf8.drop_ascii {w r : Bytes} (h : Utf8 (w ++ r)) (hw : ∀ c ∈ w, c < 128) : Utf8 r := by
  induction w with
  | nil => exact h
  | cons c w ih =>
    exact ih (Utf8.cut (a := []) h (hw c (List.mem_cons_self ..))).2
      fun x hx => hw x (List.mem_cons_of_mem _ hx)

/-- the mark is a character -/
theorem Utf8.drop_bom {r : Bytes} (h : Utf8 (0xEF :: 0xBB :: 0xBF :: r)) : Utf8 r := by
  obtain ⟨cs, h⟩ := h
  cases cs with
  | nil => cases h
  | cons ch cs =>
    rw [List.flatMap_cons] at h
    have hbyte : ∀ {n}, n < 256 → (0xEF : UInt8) = UInt8.ofNat n → n = 0xEF := fun hn he => by
      have := congrArg UInt8.toNat he
      rwa [UInt8.toNat_ofNat_of_lt' hn, eq_comm] at this
    unfold String.utf8EncodeChar at h
    simp only at h
    generalize ch.val.toNat = v at h
    split_ifs at h with h1 h2 h3
    · have := hbyte (by omega) (List.cons.inj h).1
      omega
    · have := hbyte (by omega) (List.cons.inj h).1
      omega
    · rw [(List.cons.inj (List.cons.inj (List.cons.inj h).2).2).2]
      exact utf8_encode cs
    · have := hbyte (by omega) (List.cons.inj h).1
      omega

end Text
