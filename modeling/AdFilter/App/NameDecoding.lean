import AdFilter.App.Blocking

/-!
# The name that comes out of a query

`fmt_dns_msg` against the encoding of DNS names. It tells length bytes from characters by
being smaller than `'0'`: a hyphen is, and a length from 48 on is not.
-/

namespace AdFilter.App.NameDecoding

open AdFilter.Slre.Match
open AdFilter.Slre.Plain
open AdFilter.Driver.HostList
open AdFilter.Driver.Filter
open AdFilter.App.Blocking

/-- Letters, digits, `-` and `_`. -/
def isNameChar (b : UInt8) : Bool := isAlnum b || b == byte '-' || b == byte '_'

/-- Labels of a name, with an encoding that fits 255 bytes with its zero byte. -/
structure Labels (ls : List (List UInt8)) : Prop where
  nonempty : ∀ l ∈ ls, 1 ≤ l.length
  short : ∀ l ∈ ls, l.length ≤ 63
  chars : ∀ l ∈ ls, ∀ b ∈ l, isNameChar b = true
  encoded : (wireLabels ls).length + 1 ≤ 255

variable {l : List UInt8} {ls : List (List UInt8)}

/-! ## Characters and lengths -/

theorem dnsChar_eq_self_iff {b : UInt8} (h : isNameChar b = true) :
    dnsChar b = b ↔ b ≠ byte '-' := by
  unfold isNameChar at h
  rcases Bool.or_eq_true_iff.mp h with hb | hb
  · rcases Bool.or_eq_true_iff.mp hb with ha | hh
    · refine iff_of_true (dnsChar_of_isAlnum ha) ?_
      rintro rfl
      exact absurd ha (by decide)
    · rw [eq_of_beq hh]
      decide
  · rw [eq_of_beq hb]
    decide

theorem dnsChar_length_iff {n : Nat} (h : n ≤ 63) :
    dnsChar (UInt8.ofNat n) = byte '.' ↔ n < 48 := by
  have hall : ∀ n ≤ 63, (dnsChar (UInt8.ofNat n) = byte '.' ↔ n < 48) := by decide
  exact hall n h

theorem map_dnsChar_eq_self_iff (h : ∀ b ∈ l, isNameChar b = true) :
    l.map dnsChar = l ↔ byte '-' ∉ l := by
  have hself : l.map dnsChar = l ↔ ∀ b ∈ l, dnsChar b = id b := by
    rw [← List.map_inj_left, List.map_id]
  rw [hself]
  constructor
  · intro hall hmem
    exact (dnsChar_eq_self_iff (h _ hmem)).mp (hall _ hmem) rfl
  · intro hmem b hb
    exact (dnsChar_eq_self_iff (h b hb)).mpr fun heq => hmem (heq ▸ hb)

/-- The labels after the first one, each with the byte before it. -/
theorem map_wireLabels_eq_iff (hshort : ∀ l ∈ ls, l.length ≤ 63)
    (hchars : ∀ l ∈ ls, ∀ b ∈ l, isNameChar b = true) :
    (wireLabels ls).map dnsChar = dotLabels ls ↔
      ∀ l ∈ ls, byte '-' ∉ l ∧ l.length < 48 := by
  induction ls with
  | nil => exact iff_of_true rfl fun l hl => absurd hl List.not_mem_nil
  | cons l ls ih =>
    have hrest := ih (fun x hx => hshort x (List.mem_cons_of_mem l hx))
      fun x hx => hchars x (List.mem_cons_of_mem l hx)
    have hwire : wireLabels (l :: ls) = UInt8.ofNat l.length :: (l ++ wireLabels ls) := rfl
    have hdots : dotLabels (l :: ls) = byte '.' :: (l ++ dotLabels ls) := rfl
    rw [hwire, hdots, List.map_cons, List.map_append, List.cons.injEq,
      List.append_eq_append_iff_of_size_eq_left (List.length_map dnsChar), hrest,
      dnsChar_length_iff (hshort l List.mem_cons_self),
      map_dnsChar_eq_self_iff (hchars l List.mem_cons_self), List.forall_mem_cons]
    tauto

/-! ## The whole name -/

theorem noNul_name {l : List UInt8} (h : Labels (l :: ls)) : 0 ∉ l ++ wireLabels ls := by
  have hchar : ∀ x ∈ l :: ls, 0 ∉ x := by
    intro x hx h0
    exact absurd (h.chars x hx 0 h0) (by decide)
  intro h0
  rcases List.mem_append.mp h0 with h0 | h0
  · exact hchar l List.mem_cons_self h0
  · obtain ⟨x, hx, hb⟩ := List.mem_flatMap.mp h0
    have hmem : x ∈ l :: ls := List.mem_cons_of_mem l hx
    rcases List.mem_cons.mp hb with hb | hb
    · have hn := congrArg UInt8.toNat hb
      have h1 := h.nonempty x hmem
      have h2 := h.short x hmem
      rw [UInt8.toNat_ofNat', UInt8.toNat_zero] at hn
      omega
    · exact hchar x hmem hb

/-- A query for the root has nothing before its zero byte, which is skipped. -/
theorem fmtDnsMsg_root {header typeClass : List UInt8} (hh : header.length = 12)
    (ht : typeClass.length = 4) {data : Mem}
    (hd : bytes data (query header [] typeClass).length = query header [] typeClass) {len : Int}
    (hlen : ((query header [] typeClass).length : Int) ≤ len + 1) :
    fmtDnsMsg data len = some [] ↔ typeClass.getD 0 0 = 0 := by
  have hquery : (query header [] typeClass).length = 17 := by
    simp [query, wireLabels, hh, ht]
  have hfirst : data 13 = typeClass.getD 0 0 := by
    rw [getD_of_bytes hd (by omega), query, List.getD_append_right _ _ _ _ (by omega), hh]
    rfl
  obtain ⟨n, hn⟩ : ∃ n, len.toNat = n + 1 := ⟨len.toNat - 1, by omega⟩
  rw [fmtDnsMsg, hn, fmtDnsFrom, Nat.zero_add, hfirst]
  split
  · rename_i hz
    exact iff_of_true rfl hz
  · rename_i hne
    refine iff_of_false (fun h => ?_) hne
    split at h
    · exact absurd (Option.some.inj h) (List.cons_ne_nil _ _)
    · exact absurd h.symm (Option.some_ne_none _)

/-- The name comes out as the labels with single dots just when no label has a hyphen, no
label but the first has a length from 48 on, and the type of a query for the root is
below 256. -/
theorem fmtDnsMsg_dotted_iff (h : Labels ls) {header typeClass : List UInt8}
    (hh : header.length = 12) (ht : typeClass.length = 4) {data : Mem}
    (hd : bytes data (query header ls typeClass).length = query header ls typeClass) {len : Int}
    (hlen : ((query header ls typeClass).length : Int) ≤ len + 1) :
    fmtDnsMsg data len = some (dotted ls) ↔
      (∀ l ∈ ls, byte '-' ∉ l) ∧ (∀ l ∈ ls.tail, l.length < 48) ∧
        (ls = [] → typeClass.getD 0 0 = 0) := by
  cases ls with
  | nil =>
    rw [dotted, fmtDnsMsg_root hh ht hd hlen]
    simp
  | cons l ls =>
    have hfits : (l ++ wireLabels ls).length < dnsBufferLen := by
      have hencoded := h.encoded
      have hwire : wireLabels (l :: ls) = UInt8.ofNat l.length :: (l ++ wireLabels ls) := rfl
      rw [hwire, List.length_cons] at hencoded
      rw [dnsBufferLen]
      omega
    rw [fmtDnsMsg_labels (noNul_name h) hfits hh hd hlen, Option.some.injEq, List.map_append, dotted,
      List.append_eq_append_iff_of_size_eq_left (List.length_map dnsChar),
      map_dnsChar_eq_self_iff (h.chars l List.mem_cons_self),
      map_wireLabels_eq_iff (fun x hx => h.short x (List.mem_cons_of_mem l hx))
        (fun x hx => h.chars x (List.mem_cons_of_mem l hx)), List.forall_mem_cons, List.tail_cons]
    constructor
    · rintro ⟨hl, hall⟩
      exact ⟨⟨hl, fun x hx => (hall x hx).1⟩, fun x hx => (hall x hx).2,
        fun hnil => absurd hnil (by simp)⟩
    · rintro ⟨⟨hl, hhyphen⟩, hlength, -⟩
      exact ⟨hl, fun x hx => ⟨hhyphen x hx, hlength x hx⟩⟩

theorem nameChars_of_all (h : ls.all (·.all isNameChar) = true) :
    ∀ l ∈ ls, ∀ b ∈ l, isNameChar b = true :=
  fun l hl => List.all_eq_true.mp (List.all_eq_true.mp h l hl)

/-- `a_b.c` -/
theorem fmtDnsMsg_dotted_short : Labels [[97, 95, 98], [99]] ∧
    fmtDnsMsg (textMem (query header0 [[97, 95, 98], [99]] [0, 1, 0, 1])) 22 =
      some (dotted [[97, 95, 98], [99]]) := by
  have hlabels : Labels [[97, 95, 98], [99]] :=
    ⟨by decide, by decide, nameChars_of_all (by decide), by decide⟩
  let packet := query header0 [[97, 95, 98], [99]] [0, 1, 0, 1]
  have hd : bytes (textMem packet) packet.length = packet := by
    rw [bytes_textMem (Nat.le_refl _), List.take_length]
  have hlen : (packet.length : Int) ≤ 22 + 1 := by decide
  have htype : [0, 1, 0, 1].length = 4 := rfl
  refine ⟨hlabels, (fmtDnsMsg_dotted_iff hlabels rfl htype hd hlen).mpr ⟨by decide, by decide, ?_⟩⟩
  exact fun hnil => absurd hnil (by simp)

/-- The hyphen of `a-b` comes out as a dot. -/
theorem hyphen_lost :
    ¬ ∀ (ls : List (List UInt8)) (header typeClass : List UInt8) (data : Mem) (len : Int),
      Labels ls → header.length = 12 → typeClass.length = 4 →
      bytes data (query header ls typeClass).length = query header ls typeClass →
      ((query header ls typeClass).length : Int) ≤ len →
      fmtDnsMsg data len = some (dotted ls) := by
  intro h
  have hlabels : Labels [[97, 45, 98]] :=
    ⟨by decide, by decide, nameChars_of_all (by decide), by decide⟩
  let packet := query header0 [[97, 45, 98]] [0, 1, 0, 1]
  have hd : bytes (textMem packet) packet.length = packet := by
    rw [bytes_textMem (Nat.le_refl _), List.take_length]
  have hname := h [[97, 45, 98]] header0 [0, 1, 0, 1] (textMem packet) 21 hlabels rfl rfl hd
    (by decide)
  exact absurd hname (by decide)

end AdFilter.App.NameDecoding
