import Mathlib.Data.List.Basic
import StatementLexer.Text.Utf8

/-!
Decoding inverts encoding: a byte string is decoded to the characters `cs` exactly if it is the code
of `cs`. In one direction the machine runs over the code of a character; in the other it is followed
from the first byte of a character to its last, where what has been read begins the code of every
character that it can still become (`Begun`).
-/

namespace StatementLexer.Utf8

def encode (cs : List Char) : Bytes :=
  cs.flatMap String.utf8EncodeChar

/-- The byte string is the code of some characters. -/
def Valid (bs : Bytes) : Prop :=
  ∃ cs, encode cs = bs

/-- The range of the bytes behind the first byte of a character. -/
def IsContinuation (b : UInt8) : Prop :=
  0x80 ≤ b.toNat ∧ b.toNat ≤ 0xBF

/-- The number that continuation bytes make of the bits before them. -/
def number (bits : Nat) (bs : Bytes) : Nat :=
  bs.foldl (fun n b => n * 0x40 + (b.toNat - 0x80)) bits

theorem number_cons (bits : Nat) (b : UInt8) (bs : Bytes) :
    number bits (b :: bs) = number (bits * 0x40 + (b.toNat - 0x80)) bs :=
  List.foldl_cons ..

theorem encode_ofNat {n : Nat} (h : n.isValidChar) :
    String.utf8EncodeChar (Char.ofNat n) =
      if n ≤ 0x7F then [UInt8.ofNat n]
      else if n ≤ 0x7FF then
        [UInt8.ofNat (n / 0x40 % 0x20 + 0xC0), UInt8.ofNat (n % 0x40 + 0x80)]
      else if n ≤ 0xFFFF then
        [UInt8.ofNat (n / 0x1000 % 0x10 + 0xE0), UInt8.ofNat (n / 0x40 % 0x40 + 0x80),
          UInt8.ofNat (n % 0x40 + 0x80)]
      else
        [UInt8.ofNat (n / 0x40000 % 8 + 0xF0), UInt8.ofNat (n / 0x1000 % 0x40 + 0x80),
          UInt8.ofNat (n / 0x40 % 0x40 + 0x80), UInt8.ofNat (n % 0x40 + 0x80)] := by
  have hval : (Char.ofNat n).val.toNat = n := by
    rw [Char.ofNat, dif_pos h]
    rfl
  rw [String.utf8EncodeChar, hval]

theorem ofNat_eq_of_toNat {n : Nat} {b : UInt8} (h : n = b.toNat) : UInt8.ofNat n = b := by
  rw [h, UInt8.ofNat_toNat]

theorem encode_one {b : UInt8} (h : b.toNat < 0x80) :
    String.utf8EncodeChar (Char.ofNat b.toNat) = [b] := by
  rw [encode_ofNat (.inl (by omega)), if_pos (by omega), UInt8.ofNat_toNat]

theorem encode_two {b c : UInt8} (hlow : 0xC2 ≤ b.toNat) (hhigh : b.toNat < 0xE0)
    (hc : IsContinuation c) :
    String.utf8EncodeChar (Char.ofNat (number (b.toNat - 0xC0) [c])) = [b, c] := by
  obtain ⟨hc, hc'⟩ := hc
  have hnumber : number (b.toNat - 0xC0) [c] = (b.toNat - 0xC0) * 0x40 + (c.toNat - 0x80) := rfl
  generalize number (b.toNat - 0xC0) [c] = n at hnumber ⊢
  rw [encode_ofNat (.inl (by omega)), if_neg (by omega), if_pos (by omega),
    @ofNat_eq_of_toNat _ b (by omega), @ofNat_eq_of_toNat _ c (by omega)]

theorem encode_three {b c d : UInt8} (hlow : 0xE0 ≤ b.toNat) (hhigh : b.toNat < 0xF0)
    (hc : IsContinuation c) (hd : IsContinuation d) (hlong : b.toNat = 0xE0 → 0xA0 ≤ c.toNat)
    (hsurrogate : b.toNat = 0xED → c.toNat ≤ 0x9F) :
    String.utf8EncodeChar (Char.ofNat (number (b.toNat - 0xE0) [c, d])) = [b, c, d] := by
  obtain ⟨hc, hc'⟩ := hc
  obtain ⟨hd, hd'⟩ := hd
  have hnumber : number (b.toNat - 0xE0) [c, d] =
      ((b.toNat - 0xE0) * 0x40 + (c.toNat - 0x80)) * 0x40 + (d.toNat - 0x80) := rfl
  generalize number (b.toNat - 0xE0) [c, d] = n at hnumber ⊢
  have hvalid : n.isValidChar := by
    rw [Nat.isValidChar]
    omega
  rw [encode_ofNat hvalid, if_neg (by omega), if_neg (by omega), if_pos (by omega),
    @ofNat_eq_of_toNat _ b (by omega), @ofNat_eq_of_toNat _ c (by omega),
    @ofNat_eq_of_toNat _ d (by omega)]

theorem encode_four {b c d e : UInt8} (hlow : 0xF0 ≤ b.toNat) (hhigh : b.toNat < 0xF5)
    (hc : IsContinuation c) (hd : IsContinuation d) (he : IsContinuation e)
    (hlong : b.toNat = 0xF0 → 0x90 ≤ c.toNat) (hlast : b.toNat = 0xF4 → c.toNat ≤ 0x8F) :
    String.utf8EncodeChar (Char.ofNat (number (b.toNat - 0xF0) [c, d, e])) = [b, c, d, e] := by
  obtain ⟨hc, hc'⟩ := hc
  obtain ⟨hd, hd'⟩ := hd
  obtain ⟨he, he'⟩ := he
  have hnumber : number (b.toNat - 0xF0) [c, d, e] =
      (((b.toNat - 0xF0) * 0x40 + (c.toNat - 0x80)) * 0x40 + (d.toNat - 0x80)) * 0x40 +
        (e.toNat - 0x80) := rfl
  generalize number (b.toNat - 0xF0) [c, d, e] = n at hnumber ⊢
  have hvalid : n.isValidChar := by
    rw [Nat.isValidChar]
    omega
  rw [encode_ofNat hvalid, if_neg (by omega), if_neg (by omega), if_neg (by omega),
    @ofNat_eq_of_toNat _ b (by omega), @ofNat_eq_of_toNat _ c (by omega),
    @ofNat_eq_of_toNat _ d (by omega), @ofNat_eq_of_toNat _ e (by omega)]

section Lead

variable {b c : UInt8}

/-- The least byte that may follow the first byte `b` of a character. -/
def lowest (b : UInt8) : UInt8 :=
  if b.toNat = 0xE0 then 0xA0 else if b.toNat = 0xF0 then 0x90 else 0x80

/-- The greatest byte that may follow the first byte `b` of a character. -/
def highest (b : UInt8) : UInt8 :=
  if b.toNat = 0xED then 0x9F else if b.toNat = 0xF4 then 0x8F else 0xBF

theorem lowest_le_iff : lowest b ≤ c ↔
    0x80 ≤ c.toNat ∧ (b.toNat = 0xE0 → 0xA0 ≤ c.toNat) ∧ (b.toNat = 0xF0 → 0x90 ≤ c.toNat) := by
  rw [lowest, UInt8.le_iff_toNat_le]
  split_ifs <;> simp only [UInt8.reduceToNat] <;> omega

theorem le_highest_iff : c ≤ highest b ↔
    c.toNat ≤ 0xBF ∧ (b.toNat = 0xED → c.toNat ≤ 0x9F) ∧ (b.toNat = 0xF4 → c.toNat ≤ 0x8F) := by
  rw [highest, UInt8.le_iff_toNat_le]
  split_ifs <;> simp only [UInt8.reduceToNat] <;> omega

theorem lead_eq (b : UInt8) : lead b =
    if b.toNat < 0x80 then .complete (Char.ofNat b.toNat)
    else if b.toNat < 0xC2 then .refused
    else if b.toNat < 0xE0 then .pending ⟨b.toNat - 0xC0, 1, lowest b, highest b⟩
    else if b.toNat < 0xF0 then .pending ⟨b.toNat - 0xE0, 2, lowest b, highest b⟩
    else if b.toNat < 0xF5 then .pending ⟨b.toNat - 0xF0, 3, lowest b, highest b⟩
    else .refused := by
  obtain ⟨⟨v⟩⟩ := b
  revert v
  decide +kernel

theorem lead_one (h : b.toNat < 0x80) : lead b = .complete (Char.ofNat b.toNat) := by
  rw [lead_eq, if_pos h]

theorem lead_two (h : 0xC2 ≤ b.toNat) (h' : b.toNat < 0xE0) :
    lead b = .pending ⟨b.toNat - 0xC0, 1, lowest b, highest b⟩ := by
  rw [lead_eq, if_neg (by omega), if_neg (by omega), if_pos h']

theorem lead_three (h : 0xE0 ≤ b.toNat) (h' : b.toNat < 0xF0) :
    lead b = .pending ⟨b.toNat - 0xE0, 2, lowest b, highest b⟩ := by
  rw [lead_eq, if_neg (by omega), if_neg (by omega), if_neg (by omega), if_pos h']

theorem lead_four (h : 0xF0 ≤ b.toNat) (h' : b.toNat < 0xF5) :
    lead b = .pending ⟨b.toNat - 0xF0, 3, lowest b, highest b⟩ := by
  rw [lead_eq, if_neg (by omega), if_neg (by omega), if_neg (by omega), if_neg (by omega),
    if_pos h']

end Lead

section Decoding

variable {s : Option Pending} {p : Pending} {b : UInt8} {c : Char}

theorem decodeFrom_cons_complete (h : step s b = .complete c) (bs : Bytes) :
    decodeFrom s (b :: bs) = (decodeFrom none bs).map (c :: ·) := by
  rw [decodeFrom, h]

theorem decodeFrom_cons_pending (h : step s b = .pending p) (bs : Bytes) :
    decodeFrom s (b :: bs) = decodeFrom (some p) bs := by
  rw [decodeFrom, h]

theorem decodeFrom_some_append {rest : Bytes} (hlow : p.low ≤ b) (hhigh : b ≤ p.high)
    (hlength : (b :: rest).length = p.lacking) (hrest : ∀ d ∈ rest, IsContinuation d)
    (bs : Bytes) :
    decodeFrom (some p) (b :: rest ++ bs) =
      (decodeFrom none bs).map (Char.ofNat (number p.bits (b :: rest)) :: ·) := by
  induction rest generalizing p b with
  | nil =>
      have hlacking : p.lacking ≤ 1 := Nat.le_of_eq hlength.symm
      have hstep : step (some p) b = .complete (Char.ofNat (number p.bits [b])) := by
        rw [step, Pending.step, if_pos ⟨hlow, hhigh⟩]
        exact if_pos hlacking
      exact decodeFrom_cons_complete hstep bs
  | cons d rest ih =>
      rw [List.length_cons, List.length_cons] at hlength
      have hstep : step (some p) b =
          .pending ⟨p.bits * 0x40 + (b.toNat - 0x80), p.lacking - 1, 0x80, 0xBF⟩ := by
        rw [step, Pending.step, if_pos ⟨hlow, hhigh⟩]
        exact if_neg (by omega)
      obtain ⟨hd, hrest⟩ := List.forall_mem_cons.mp hrest
      rw [List.cons_append, decodeFrom_cons_pending hstep, number_cons]
      exact ih hd.1 hd.2 (by rw [List.length_cons]; dsimp only; omega) hrest

theorem decodeFrom_none_append {bits lacking : Nat} {d : UInt8} {rest : Bytes}
    (hlead : lead b = .pending ⟨bits, lacking, lowest b, highest b⟩)
    (hd : lowest b ≤ d ∧ d ≤ highest b) (hlength : (d :: rest).length = lacking)
    (hrest : ∀ e ∈ rest, IsContinuation e) (bs : Bytes) :
    decodeFrom none (b :: d :: rest ++ bs) =
      (decodeFrom none bs).map (Char.ofNat (number bits (d :: rest)) :: ·) := by
  have hstep : step none b = .pending ⟨bits, lacking, lowest b, highest b⟩ := hlead
  rw [List.cons_append, decodeFrom_cons_pending hstep]
  exact decodeFrom_some_append hd.1 hd.2 hlength hrest bs

theorem decodeFrom_two {n : Nat} {b d : UInt8} (hn : 0x7F < n) (hn' : n ≤ 0x7FF)
    (hb : b.toNat = n / 0x40 + 0xC0) (hd : d.toNat = n % 0x40 + 0x80) (bs : Bytes) :
    decodeFrom none ([b, d] ++ bs) = (decodeFrom none bs).map (Char.ofNat n :: ·) := by
  have hlead := @lead_two b (by omega) (by omega)
  have hrange : lowest b ≤ d ∧ d ≤ highest b := by
    rw [lowest_le_iff, le_highest_iff]
    omega
  have hnumber : number (b.toNat - 0xC0) [d] = n := by
    change (b.toNat - 0xC0) * 0x40 + (d.toNat - 0x80) = n
    omega
  have hrest : ∀ x ∈ ([] : Bytes), IsContinuation x := List.forall_mem_nil _
  have h := decodeFrom_none_append hlead hrange rfl hrest bs
  rwa [hnumber] at h

theorem decodeFrom_three {n : Nat} {b d e : UInt8} (hn : 0x7FF < n) (hn' : n ≤ 0xFFFF)
    (hvalid : n < 0xD800 ∨ 0xDFFF < n) (hb : b.toNat = n / 0x1000 + 0xE0)
    (hd : d.toNat = n / 0x40 % 0x40 + 0x80) (he : e.toNat = n % 0x40 + 0x80) (bs : Bytes) :
    decodeFrom none ([b, d, e] ++ bs) = (decodeFrom none bs).map (Char.ofNat n :: ·) := by
  have hlead := @lead_three b (by omega) (by omega)
  have hrange : lowest b ≤ d ∧ d ≤ highest b := by
    rw [lowest_le_iff, le_highest_iff]
    omega
  have hrest : ∀ x ∈ [e], IsContinuation x :=
    List.forall_mem_singleton.mpr ⟨by omega, by omega⟩
  have hnumber : number (b.toNat - 0xE0) [d, e] = n := by
    change ((b.toNat - 0xE0) * 0x40 + (d.toNat - 0x80)) * 0x40 + (e.toNat - 0x80) = n
    omega
  have h := decodeFrom_none_append hlead hrange rfl hrest bs
  rwa [hnumber] at h

theorem decodeFrom_four {n : Nat} {b d e f : UInt8} (hn : 0xFFFF < n) (hn' : n < 0x110000)
    (hb : b.toNat = n / 0x40000 + 0xF0) (hd : d.toNat = n / 0x1000 % 0x40 + 0x80)
    (he : e.toNat = n / 0x40 % 0x40 + 0x80) (hf : f.toNat = n % 0x40 + 0x80) (bs : Bytes) :
    decodeFrom none ([b, d, e, f] ++ bs) = (decodeFrom none bs).map (Char.ofNat n :: ·) := by
  have hlead := @lead_four b (by omega) (by omega)
  have hrange : lowest b ≤ d ∧ d ≤ highest b := by
    rw [lowest_le_iff, le_highest_iff]
    omega
  have hrest : ∀ x ∈ [e, f], IsContinuation x :=
    List.forall_mem_cons.mpr ⟨⟨by omega, by omega⟩,
      List.forall_mem_singleton.mpr ⟨by omega, by omega⟩⟩
  have hnumber : number (b.toNat - 0xF0) [d, e, f] = n := by
    change (((b.toNat - 0xF0) * 0x40 + (d.toNat - 0x80)) * 0x40 + (e.toNat - 0x80)) * 0x40 +
      (f.toNat - 0x80) = n
    omega
  have h := decodeFrom_none_append hlead hrange rfl hrest bs
  rwa [hnumber] at h

theorem toNat_ofNat_eq {m n : Nat} (h : m = n) (hn : n < 0x100) : (UInt8.ofNat m).toNat = n := by
  rw [h]
  exact UInt8.toNat_ofNat_of_lt' hn

theorem decodeFrom_encode (c : Char) (bs : Bytes) :
    decodeFrom none (String.utf8EncodeChar c ++ bs) = (decodeFrom none bs).map (c :: ·) := by
  obtain ⟨n, hvalid, rfl⟩ : ∃ n, n.isValidChar ∧ Char.ofNat n = c :=
    ⟨c.toNat, c.valid, Char.ofNat_toNat c⟩
  rw [encode_ofNat hvalid]
  rw [Nat.isValidChar] at hvalid
  split_ifs with hone htwo hthree
  · have hn := toNat_ofNat_eq (Eq.refl n) (by omega)
    have hlead : step none (UInt8.ofNat n) = .complete (Char.ofNat n) := by
      rw [step, lead_one (by omega), hn]
    exact decodeFrom_cons_complete hlead bs
  · exact decodeFrom_two (by omega) htwo (toNat_ofNat_eq (by omega) (by omega))
      (toNat_ofNat_eq rfl (by omega)) bs
  · exact decodeFrom_three (by omega) hthree (by omega) (toNat_ofNat_eq (by omega) (by omega))
      (toNat_ofNat_eq rfl (by omega)) (toNat_ofNat_eq rfl (by omega)) bs
  · exact decodeFrom_four (by omega) (by omega) (toNat_ofNat_eq (by omega) (by omega))
      (toNat_ofNat_eq rfl (by omega)) (toNat_ofNat_eq rfl (by omega))
      (toNat_ofNat_eq rfl (by omega)) bs

theorem decode?_encode (cs : List Char) : decode? (encode cs) = some cs := by
  induction cs with
  | nil => rfl
  | cons c cs ih =>
      rw [encode, List.flatMap_cons, decode?, decodeFrom_encode]
      exact Option.map_eq_some_iff.mpr ⟨cs, ih, rfl⟩

end Decoding

/-- The bytes `read` have begun a character: with continuation bytes that complete it they are its
code. -/
structure Begun (read : Bytes) (p : Pending) : Prop where
  lacking : 1 ≤ p.lacking
  completed : ∀ b rest, p.low ≤ b → b ≤ p.high → (b :: rest).length = p.lacking →
    (∀ c ∈ rest, IsContinuation c) →
      String.utf8EncodeChar (Char.ofNat (number p.bits (b :: rest))) = read ++ b :: rest

section First

variable {b : UInt8}

theorem begun_two (hb : 0xC2 ≤ b.toNat) (hb' : b.toNat < 0xE0) :
    Begun [b] ⟨b.toNat - 0xC0, 1, lowest b, highest b⟩ := by
  refine ⟨Nat.le_refl 1, ?_⟩
  intro c rest hlow hhigh hlength _
  rw [lowest_le_iff] at hlow
  rw [le_highest_iff] at hhigh
  obtain rfl : rest = [] := List.eq_nil_of_length_eq_zero (by simpa using hlength)
  exact encode_two hb hb' ⟨hlow.1, hhigh.1⟩

theorem begun_three (hb : 0xE0 ≤ b.toNat) (hb' : b.toNat < 0xF0) :
    Begun [b] ⟨b.toNat - 0xE0, 2, lowest b, highest b⟩ := by
  refine ⟨Nat.le_succ 1, ?_⟩
  intro c rest hlow hhigh hlength hrest
  obtain ⟨hlow, hlong, -⟩ := lowest_le_iff.mp hlow
  obtain ⟨hhigh, hsurrogate, -⟩ := le_highest_iff.mp hhigh
  obtain ⟨d, rfl⟩ := List.length_eq_one_iff.mp (by simpa using hlength)
  exact encode_three hb hb' ⟨hlow, hhigh⟩ (hrest d List.mem_cons_self) hlong hsurrogate

theorem begun_four (hb : 0xF0 ≤ b.toNat) (hb' : b.toNat < 0xF5) :
    Begun [b] ⟨b.toNat - 0xF0, 3, lowest b, highest b⟩ := by
  refine ⟨Nat.succ_pos 2, ?_⟩
  intro c rest hlow hhigh hlength hrest
  obtain ⟨hlow, -, hlong⟩ := lowest_le_iff.mp hlow
  obtain ⟨hhigh, -, hlast⟩ := le_highest_iff.mp hhigh
  obtain ⟨d, e, rfl⟩ := List.length_eq_two.mp (by simpa using hlength)
  exact encode_four hb hb' ⟨hlow, hhigh⟩ (hrest d (by simp)) (hrest e (by simp)) hlong hlast

theorem begun_of_lead {p : Pending} (h : lead b = .pending p) : Begun [b] p := by
  rw [lead_eq] at h
  split_ifs at h with h80 hC2 hE0 hF0 hF5
  · obtain rfl := Progress.pending.inj h
    exact begun_two (Nat.le_of_not_lt hC2) hE0
  · obtain rfl := Progress.pending.inj h
    exact begun_three (Nat.le_of_not_lt hE0) hF0
  · obtain rfl := Progress.pending.inj h
    exact begun_four (Nat.le_of_not_lt hF0) hF5

theorem encode_of_lead {c : Char} (h : lead b = .complete c) : String.utf8EncodeChar c = [b] := by
  rw [lead_eq] at h
  split_ifs at h with h80
  obtain rfl := Progress.complete.inj h
  exact encode_one h80

end First

namespace Begun

variable {read : Bytes} {p q : Pending} {b : UInt8} {c : Char}

theorem step (h : Begun read p) (hstep : p.step b = .pending q) : Begun (read ++ [b]) q := by
  unfold Pending.step at hstep
  split at hstep
  · next hb =>
      dsimp only at hstep
      split at hstep
      · cases hstep
      · next hlacking =>
          obtain rfl := Progress.pending.inj hstep
          refine ⟨by dsimp only; omega, ?_⟩
          intro d rest hd hd' hlength hrest
          have hwhole := h.completed b (d :: rest) hb.1 hb.2
            (by simp only [List.length_cons] at hlength ⊢; omega)
            (List.forall_mem_cons.mpr ⟨⟨hd, hd'⟩, hrest⟩)
          rw [number_cons] at hwhole
          rw [hwhole, List.append_assoc, List.singleton_append]
  · cases hstep

theorem complete (h : Begun read p) (hstep : p.step b = .complete c) :
    String.utf8EncodeChar c = read ++ [b] := by
  unfold Pending.step at hstep
  split at hstep
  · next hb =>
      dsimp only at hstep
      split at hstep
      · next hlacking =>
          obtain rfl := Progress.complete.inj hstep
          have hlength : [b].length = p.lacking := by
            have hpos := h.lacking
            rw [List.length_singleton]
            omega
          exact h.completed b [] hb.1 hb.2 hlength (by simp)
      · cases hstep
  · cases hstep

end Begun

/-- What has been read of a character; nothing where none has begun. -/
def Started : Option Pending → Bytes → Prop
  | none, read => read = []
  | some p, read => Begun read p

namespace Started

variable {s : Option Pending} {read : Bytes} {p : Pending} {b : UInt8} {c : Char}

theorem pending (h : Started s read) (hstep : step s b = .pending p) : Begun (read ++ [b]) p := by
  rcases s with _ | q
  · subst h
    exact begun_of_lead hstep
  · exact Begun.step h hstep

theorem complete (h : Started s read) (hstep : step s b = .complete c) :
    String.utf8EncodeChar c = read ++ [b] := by
  rcases s with _ | q
  · subst h
    exact encode_of_lead hstep
  · exact Begun.complete h hstep

end Started

/-- With what has been read of a character the bytes behind it are the code of the characters they
are decoded to. -/
theorem encode_of_decodeFrom {s : Option Pending} {read bs : Bytes} {cs : List Char}
    (hread : Started s read) (h : decodeFrom s bs = some cs) : encode cs = read ++ bs := by
  induction bs generalizing s read cs with
  | nil =>
      rcases s with _ | p
      · cases h
        rw [hread]
        rfl
      · cases h
  | cons b bs ih =>
      have hsplit : read ++ b :: bs = read ++ [b] ++ bs := by simp
      rw [hsplit]
      cases hstep : step s b with
      | complete c =>
          rw [decodeFrom_cons_complete hstep] at h
          obtain ⟨ds, hds, rfl⟩ := Option.map_eq_some_iff.mp h
          have hnone : Started none [] := rfl
          have hrest : encode ds = bs := ih hnone hds
          rw [encode, List.flatMap_cons, hread.complete hstep]
          exact congrArg (read ++ [b] ++ ·) hrest
      | pending p =>
          rw [decodeFrom_cons_pending hstep] at h
          have hsome : Started (some p) (read ++ [b]) := hread.pending hstep
          exact ih hsome h
      | refused =>
          rw [decodeFrom, hstep] at h
          cases h

theorem decode?_eq_some_iff {bs : Bytes} {cs : List Char} :
    decode? bs = some cs ↔ encode cs = bs := by
  constructor
  · exact @encode_of_decodeFrom none [] bs cs rfl
  · rintro rfl
    exact decode?_encode cs

theorem valid_iff_isSome_decode? {bs : Bytes} : Valid bs ↔ (decode? bs).isSome = true := by
  rw [Option.isSome_iff_exists]
  exact exists_congr fun cs => decode?_eq_some_iff.symm

theorem lossy_encode (cs : List Char) : lossy (encode cs) = cs :=
  lossyFrom_of_decodeFrom (decode?_encode cs)

end StatementLexer.Utf8
