import AdFilter.App.Adf
import AdFilter.Driver.Reach
import AdFilter.Slre.Plain
import Mathlib.Data.List.GetD

/-!
# A listed host is blocked

From `adf_host` to the verdict on a query: the labels of the query with the dots
`fmt_dns_msg` puts between them, the plain pattern of the new entry, and the search.
`fmt_dns_msg` turns every byte below `'0'` into a dot, and a hyphen is one of them.
-/

namespace AdFilter.App.Blocking

open AdFilter.Nt
open AdFilter.Lib.Pool
open AdFilter.Slre.Match
open AdFilter.Slre.Plain
open AdFilter.Tdi.Ipc
open AdFilter.Driver.HostList
open AdFilter.Driver.Abstract
open AdFilter.Driver.Represent
open AdFilter.Driver.Filter
open AdFilter.Driver.Reach
open AdFilter.Driver.Refine (abstracts_blank)
open AdFilter.App.Adf

/-! ## Names and queries -/

def isLabelChar (b : UInt8) : Bool := isAlnum b || b == byte '-'

structure IsLabel (l : List UInt8) : Prop where
  nonempty : 1 ≤ l.length
  short : l.length ≤ 63
  chars : ∀ b ∈ l, isLabelChar b = true

/-- Labels with a dot before each. -/
def dotLabels (ls : List (List UInt8)) : List UInt8 := ls.flatMap fun l => byte '.' :: l

/-- Labels with dots between them. -/
def dotted : List (List UInt8) → List UInt8
  | [] => []
  | l :: ls => l ++ dotLabels ls

/-- Labels as a DNS message has them, each after its length. -/
def wireLabels (ls : List (List UInt8)) : List UInt8 :=
  ls.flatMap fun l => UInt8.ofNat l.length :: l

structure HostName where
  labels : List (List UInt8)
  two : 2 ≤ labels.length
  label : ∀ l ∈ labels, IsLabel l
  fits : (dotted labels).length ≤ adfHostMaxLen

/-- Labels that differ at most in the case of their letters. -/
def SameUpToCase (ls qs : List (List UInt8)) : Prop :=
  ls.map (·.map toLower) = qs.map (·.map toLower)

/-- A DNS query: header, name, a zero byte, and its type and class. -/
def query (header : List UInt8) (qs : List (List UInt8)) (typeClass : List UInt8) : List UInt8 :=
  header ++ (wireLabels qs ++ 0 :: typeClass)

/-- What `fmt_dns_msg` makes of the name in a query. -/
def extracted (qs : List (List UInt8)) : List UInt8 := (wireLabels qs).tail.map dnsChar

/-- The matcher of the driver. `stack` is the array that `slre_match` is not given. -/
def matcher (stack : Nat → BracketPair) : Matcher := fun re s => slreMatch stack re s slreIgnoreCase

/-! ## Characters -/

theorem isAlnum_iff (b : UInt8) : isAlnum b = true ↔
    (48 ≤ b.toNat ∧ b.toNat ≤ 57) ∨ (65 ≤ b.toNat ∧ b.toNat ≤ 90) ∨
      (97 ≤ b.toNat ∧ b.toNat ≤ 122) := by
  simp [isAlnum, isDigit, isUpper, UInt8.le_iff_toNat_le, or_assoc]

theorem toNat_toLower (b : UInt8) :
    (toLower b).toNat = if 65 ≤ b.toNat ∧ b.toNat ≤ 90 then b.toNat + 32 else b.toNat := by
  by_cases h : 65 ≤ b.toNat ∧ b.toNat ≤ 90
  · have hu : isUpper b = true := by simpa [isUpper, UInt8.le_iff_toNat_le] using h
    rw [if_pos h, toLower, if_pos hu, UInt8.toNat_add]
    have h32 : (32 : UInt8).toNat = 32 := rfl
    omega
  · have hu : ¬ isUpper b = true := by simpa [isUpper, UInt8.le_iff_toNat_le] using h
    rw [if_neg h, toLower, if_neg hu]

theorem toNat_hyphen : (byte '-').toNat = 45 := by decide

theorem dnsChar_of_isAlnum {b : UInt8} (h : isAlnum b = true) : dnsChar b = b := by
  have hb := (isAlnum_iff b).mp h
  have h128 : (128 : UInt8).toNat = 128 := rfl
  have hlt : b < 128 := UInt8.lt_iff_toNat_lt.mpr (by omega)
  have hz : charVal (byte '0') = 48 := by decide
  rw [dnsChar, charVal, if_pos hlt, hz, if_neg (by omega)]

/-- A variant of a letter or digit is one too, and a hyphen has no other variant. -/
theorem isLabelChar_cases {p c : UInt8} (hp : isLabelChar p = true) (hc : toLower p = toLower c) :
    isAlnum p = true ∧ isAlnum c = true ∨ p = byte '-' ∧ c = byte '-' := by
  have hcn := congrArg UInt8.toNat hc
  rw [toNat_toLower, toNat_toLower] at hcn
  rcases Bool.or_eq_true_iff.mp hp with ha | hh
  · have hpn := (isAlnum_iff p).mp ha
    exact Or.inl ⟨ha, (isAlnum_iff c).mpr (by split_ifs at hcn <;> omega)⟩
  · obtain rfl := eq_of_beq hh
    rw [toNat_hyphen] at hcn
    have hcn' : c.toNat = (byte '-').toNat := by
      rw [toNat_hyphen]
      split_ifs at hcn <;> omega
    exact Or.inr ⟨rfl, UInt8.toNat_inj.mp hcn'⟩

/-- Up to case a label character meets what became of its variant, unless it is a
hyphen. -/
theorem toLower_dnsChar {p c : UInt8} (hp : isLabelChar p = true) (hc : toLower p = toLower c) :
    (p == byte '.' || toLower p == toLower (dnsChar c)) = (p != byte '-') := by
  rcases isLabelChar_cases hp hc with ⟨ha, hac⟩ | ⟨rfl, rfl⟩
  · have hne : p ≠ byte '-' := by
      intro he
      have hpn := (isAlnum_iff p).mp ha
      rw [he, toNat_hyphen] at hpn
      omega
    rw [dnsChar_of_isAlnum hac, hc]
    simp [hne]
  · decide

theorem isPlain_of_isLabelChar {b : UInt8} (h : isLabelChar b = true) : isPlain b = true := by
  rw [isLabelChar] at h
  simp [isPlain, h]

theorem ne_zero_of_isLabelChar {b : UInt8} (h : isLabelChar b = true) : b ≠ 0 := by
  rintro rfl
  exact absurd h (by decide)

/-! ## The host against the name -/

theorem agrees_append {as cs : List UInt8} (hl : as.length = cs.length) (bs ds : List UInt8) :
    agrees (as ++ bs) (cs ++ ds) = (agrees as cs && agrees bs ds) := by
  induction as generalizing cs with
  | nil =>
    obtain rfl := List.length_eq_zero_iff.mp hl.symm
    simp [agrees]
  | cons a as ih =>
    cases cs with
    | nil => simp at hl
    | cons c cs =>
      simp only [List.cons_append, agrees, ih (by simpa using hl), Bool.and_assoc]

/-- A label meets its variant in the extracted name unless it has a hyphen. -/
theorem agrees_label {l q : List UInt8} (hl : ∀ b ∈ l, isLabelChar b = true)
    (hq : l.map toLower = q.map toLower) :
    agrees l (q.map dnsChar) = !l.contains (byte '-') := by
  induction l generalizing q with
  | nil => rfl
  | cons b l ih =>
    cases q with
    | nil => simp at hq
    | cons c q =>
      obtain ⟨h1, h2⟩ := List.cons.inj hq
      rw [List.map_cons, agrees, ih (fun x hx => hl x (List.mem_cons_of_mem b hx)) h2,
        toLower_dnsChar (hl b List.mem_cons_self) h1, List.contains_cons, Bool.not_or,
        bne, Bool.beq_comm]

theorem length_eq_of_map_eq {l q : List UInt8} (hq : l.map toLower = q.map toLower) :
    l.length = q.length := by
  simpa using congrArg List.length hq

/-- The rest of a name: a dot of the pattern meets whatever the length byte became. -/
theorem agrees_labels {ls qs : List (List UInt8)} (hl : ∀ l ∈ ls, IsLabel l)
    (hq : SameUpToCase ls qs) :
    agrees (dotLabels ls) ((wireLabels qs).map dnsChar) =
      !(dotLabels ls).contains (byte '-') := by
  induction ls generalizing qs with
  | nil => rfl
  | cons l ls ih =>
    cases qs with
    | nil => simp [SameUpToCase] at hq
    | cons q qs =>
      obtain ⟨h1, h2⟩ := List.cons.inj hq
      have hrest := ih (fun x hx => hl x (List.mem_cons_of_mem l hx)) h2
      have hlabel := agrees_label (hl l List.mem_cons_self).chars h1
      rw [wireLabels, dotLabels] at hrest ⊢
      simp only [List.flatMap_cons, List.cons_append, List.map_cons, List.map_append, agrees,
        beq_self_eq_true, Bool.true_or, Bool.true_and]
      rw [agrees_append (by simpa using length_eq_of_map_eq h1), hlabel, hrest]
      have hdot : byte '-' ≠ byte '.' := by decide
      simp [hdot]

variable {ls qs : List (List UInt8)}

theorem agrees_extracted (hl : ∀ l ∈ ls, IsLabel l) (hq : SameUpToCase ls qs) :
    agrees (dotted ls) (extracted qs) = !(dotted ls).contains (byte '-') := by
  cases ls with
  | nil => rfl
  | cons l ls =>
    cases qs with
    | nil => simp [SameUpToCase] at hq
    | cons q qs =>
      obtain ⟨h1, h2⟩ := List.cons.inj hq
      have hrest := agrees_labels (fun x hx => hl x (List.mem_cons_of_mem l hx)) h2
      have hlabel := agrees_label (hl l List.mem_cons_self).chars h1
      rw [wireLabels] at hrest
      simp only [dotted, extracted, wireLabels, List.flatMap_cons, List.cons_append, List.tail_cons,
        List.map_append]
      rw [agrees_append (by simpa using length_eq_of_map_eq h1), hlabel, hrest]
      simp

theorem length_extracted (hq : SameUpToCase ls qs) :
    (dotted ls).length = (extracted qs).length := by
  have hrest : ∀ {ls qs : List (List UInt8)}, SameUpToCase ls qs →
      (dotLabels ls).length = (wireLabels qs).length := by
    intro ls
    induction ls with
    | nil =>
      intro qs hq
      obtain rfl := List.map_eq_nil_iff.mp hq.symm
      rfl
    | cons l ls ih =>
      intro qs hq
      cases qs with
      | nil => simp [SameUpToCase] at hq
      | cons q qs =>
        obtain ⟨h1, h2⟩ := List.cons.inj hq
        have h := ih h2
        have hlq := length_eq_of_map_eq h1
        rw [wireLabels, dotLabels] at h ⊢
        simp only [List.flatMap_cons, List.length_append, List.length_cons] at h ⊢
        omega
  cases ls with
  | nil =>
    obtain rfl := List.map_eq_nil_iff.mp hq.symm
    rfl
  | cons l ls =>
    cases qs with
    | nil => simp [SameUpToCase] at hq
    | cons q qs =>
      obtain ⟨h1, h2⟩ := List.cons.inj hq
      have h := hrest h2
      have hlq := length_eq_of_map_eq h1
      rw [wireLabels] at h
      simp only [dotted, extracted, wireLabels, List.flatMap_cons, List.cons_append, List.tail_cons,
        List.map_append, List.length_append, List.length_map] at h ⊢
      omega

theorem isPlain_dotted (hl : ∀ l ∈ ls, IsLabel l) : (dotted ls).all isPlain = true := by
  refine List.all_eq_true.mpr fun b hb => ?_
  cases ls with
  | nil => exact absurd hb List.not_mem_nil
  | cons l ls =>
    rcases List.mem_append.mp hb with hb | hb
    · exact isPlain_of_isLabelChar ((hl l List.mem_cons_self).chars b hb)
    · obtain ⟨l', hl', hb⟩ := List.mem_flatMap.mp hb
      rcases List.mem_cons.mp hb with rfl | hb
      · decide
      · exact isPlain_of_isLabelChar ((hl l' (List.mem_cons_of_mem l hl')).chars b hb)

/-- The new entry matches the extracted name exactly when it has no hyphen. -/
theorem matcher_dotted (stack : Nat → BracketPair) (hl : ∀ l ∈ ls, IsLabel l)
    (hq : SameUpToCase ls qs) :
    ((matcher stack (dotted ls) (extracted qs)).map (· == ((extracted qs).length : Int))) =
      some (!(dotted ls).contains (byte '-')) := by
  rw [matcher, slreMatch_same_length stack (isPlain_dotted hl) (length_extracted hq),
    agrees_extracted hl hq, Option.map_some]
  cases (dotted ls).contains (byte '-') with
  | true =>
    have hne : noMatch ≠ ((extracted qs).length : Int) := by
      rw [noMatch]
      omega
    simp [hne]
  | false => simp

theorem noNul_dotted (hl : ∀ l ∈ ls, IsLabel l) : 0 ∉ dotted ls := by
  intro h0
  have h := List.all_eq_true.mp (isPlain_dotted hl) 0 h0
  exact absurd h (by decide)

def HostName.host (h : HostName) : Host := ⟨dotted h.labels, noNul_dotted h.label, h.fits⟩

/-! ## The name in the message -/

theorem getD_of_bytes {data : Mem} {msg : List UInt8} (hd : bytes data msg.length = msg) {i : Nat}
    (hi : i < msg.length) : data i = msg.getD i 0 := by
  have h := congrArg (·.getD i 0) hd
  simpa [bytes, hi] using h

/-- The loop of `fmt_dns_msg` stops at the zero byte after the name. -/
theorem fmtDnsFrom_eq {data : Mem} (name : List UInt8) :
    ∀ {n i : Nat}, name.length < n → 0 ∉ name →
      (∀ j, j < name.length → data (i + j + 13) = name.getD j 0) →
      data (i + name.length + 13) = 0 → fmtDnsFrom data n i = name.map dnsChar := by
  induction name with
  | nil =>
    intro n i hn _ _ hz
    obtain ⟨n, rfl⟩ := Nat.exists_eq_succ_of_ne_zero (Nat.ne_of_gt hn)
    have hz' : data (i + 13) = 0 := hz
    simp [fmtDnsFrom, hz']
  | cons b name ih =>
    intro n i hn h0 hd hz
    obtain ⟨n, rfl⟩ := Nat.exists_eq_succ_of_ne_zero (Nat.ne_of_gt (Nat.zero_lt_of_lt hn))
    have hb : data (i + 13) = b := hd 0 (Nat.zero_lt_succ _)
    have hne : b ≠ 0 := fun he => h0 (he ▸ List.mem_cons_self)
    have hrest : fmtDnsFrom data n (i + 1) = name.map dnsChar := by
      refine ih (by simp only [List.length_cons] at hn; omega)
        (fun hm => h0 (List.mem_cons_of_mem b hm)) (fun j hj => ?_) ?_
      · have h := hd (j + 1) (by simpa using hj)
        rwa [show i + (j + 1) + 13 = i + 1 + j + 13 by omega, List.getD_cons_succ] at h
      · rwa [List.length_cons, show i + (name.length + 1) + 13 = i + 1 + name.length + 13 by omega]
          at hz
    rw [fmtDnsFrom, hb, if_neg hne, hrest, List.map_cons]

/-- A variant of a label character is one too. -/
theorem isLabelChar_of_toLower {p c : UInt8} (hp : isLabelChar p = true)
    (hc : toLower p = toLower c) : isLabelChar c = true := by
  rcases isLabelChar_cases hp hc with ⟨-, hac⟩ | ⟨rfl, rfl⟩
  · simp [isLabelChar, hac]
  · exact hp

theorem SameUpToCase.isLabel (hl : ∀ l ∈ ls, IsLabel l) (hq : SameUpToCase ls qs) :
    ∀ q ∈ qs, IsLabel q := by
  intro q hm
  have hmem : q.map toLower ∈ ls.map (·.map toLower) := by
    rw [hq]
    exact List.mem_map_of_mem hm
  obtain ⟨l, hlm, hlq⟩ := List.mem_map.mp hmem
  have hlen := length_eq_of_map_eq hlq
  have h := hl l hlm
  refine ⟨hlen ▸ h.nonempty, hlen ▸ h.short, fun c hc => ?_⟩
  have hc' : toLower c ∈ l.map toLower := by
    rw [hlq]
    exact List.mem_map_of_mem hc
  obtain ⟨b, hb, hbc⟩ := List.mem_map.mp hc'
  exact isLabelChar_of_toLower (h.chars b hb) hbc

theorem noNul_wireLabels (hl : ∀ q ∈ qs, IsLabel q) : 0 ∉ wireLabels qs := by
  intro h0
  obtain ⟨q, hq, hb⟩ := List.mem_flatMap.mp h0
  rcases List.mem_cons.mp hb with hb | hb
  · have hn := congrArg UInt8.toNat hb
    have h1 := (hl q hq).nonempty
    have h2 := (hl q hq).short
    rw [UInt8.toNat_ofNat', UInt8.toNat_zero] at hn
    omega
  · exact ne_zero_of_isLabelChar ((hl q hq).chars 0 hb) rfl

/-- `fmt_dns_msg` on a query with a name: what stands between the first length byte and the
zero byte, character by character. -/
theorem fmtDnsMsg_labels {q : List UInt8} (h0 : 0 ∉ q ++ wireLabels qs)
    (hfits : (q ++ wireLabels qs).length < dnsBufferLen) {header typeClass : List UInt8}
    (hh : header.length = 12) {data : Mem}
    (hd : bytes data (query header (q :: qs) typeClass).length = query header (q :: qs) typeClass)
    {len : Int} (hlen : ((query header (q :: qs) typeClass).length : Int) ≤ len + 1) :
    fmtDnsMsg data len = some ((q ++ wireLabels qs).map dnsChar) := by
  have hwire : wireLabels (q :: qs) = UInt8.ofNat q.length :: (q ++ wireLabels qs) := rfl
  have hquery : (query header (q :: qs) typeClass).length =
      12 + ((q ++ wireLabels qs).length + 1) + 1 + typeClass.length := by
    simp only [query, hwire, List.length_append, List.length_cons, hh]
    omega
  have hat : ∀ j, j ≤ (q ++ wireLabels qs).length →
      data (0 + j + 13) = ((q ++ wireLabels qs) ++ 0 :: typeClass).getD j 0 := by
    intro j hj
    rw [getD_of_bytes hd (by omega), query, hwire, List.getD_append_right _ _ _ _ (by omega), hh,
      show 0 + j + 13 - 12 = j + 1 by omega, List.cons_append, List.getD_cons_succ]
  have hfrom : fmtDnsFrom data len.toNat 0 = (q ++ wireLabels qs).map dnsChar := by
    refine fmtDnsFrom_eq _ (by omega) h0 (fun j hj => ?_) ?_
    · rw [hat j (by omega), List.getD_append _ _ _ _ hj]
    · rw [hat _ (Nat.le_refl _), List.getD_append_right _ _ _ _ (Nat.le_refl _), Nat.sub_self]
      rfl
  rw [fmtDnsMsg, hfrom]
  simp only [List.length_map, hfits, if_true]

/-- `fmt_dns_msg` takes the whole name out of a query, and nothing more. -/
theorem fmtDnsMsg_query (h : HostName) (hq : SameUpToCase h.labels qs)
    {header typeClass : List UInt8} (hh : header.length = 12) {data : Mem}
    (hd : bytes data (query header qs typeClass).length = query header qs typeClass) :
    fmtDnsMsg data ((query header qs typeClass).length - 1) = some (extracted qs) := by
  have hlabels := hq.isLabel h.label
  have hne : qs ≠ [] := by
    rintro rfl
    have h0 := congrArg List.length hq
    simp only [List.length_map, List.length_nil] at h0
    have h2 := h.two
    omega
  obtain ⟨q, qs', rfl⟩ := List.exists_cons_of_ne_nil hne
  have hwire : wireLabels (q :: qs') = UInt8.ofNat q.length :: (q ++ wireLabels qs') := rfl
  have hext : (extracted (q :: qs')).length = (q ++ wireLabels qs').length := by
    simp [extracted, hwire]
  have hfits := length_extracted hq
  have hmax := h.fits
  refine fmtDnsMsg_labels ?_ ?_ hh hd (by omega)
  · intro h0
    exact noNul_wireLabels hlabels (hwire ▸ List.mem_cons_of_mem _ h0)
  · rw [dnsBufferLen]
    rw [adfHostMaxLen] at hmax
    omega

/-! ## The verdict -/

section Verdict

variable {m : Matcher} {a a' : Adf} {b : Blocklist}

theorem isMatchHostList_congr {b' : Blocklist} (hab : Abstracts a b) (hab' : Abstracts a' b')
    (list : AdHost) (hl : b'.hosts list = b.hosts list) (dst : List UInt8) :
    isMatchHostList m a' (.head list) dst = isMatchHostList m a (.head list) dst := by
  rw [hab.isMatchHostList, hab'.isMatchHostList, hl]

/-- The search meets the newest entry of the user's list first. -/
theorem search_after_add (hab : Abstracts a b) {h : Host}
    (hab' : Abstracts a' (b.setHosts .user (b.hosts .user ++ [h]))) {name : List UInt8} {hit : Bool}
    (hm : (m h.chars name).map (· == (name.length : Int)) = some hit)
    (hx : isMatchHostList m a' (.head .excpt) name = some false) :
    search m a' name = if hit then some true else search m a name := by
  have hexc := isMatchHostList_congr (m := m) hab hab' .excpt
    (setHosts_of_ne b _ (by decide)) name
  have hsys := isMatchHostList_congr (m := m) hab hab' .sys
    (setHosts_of_ne b _ (by decide)) name
  have huser : isMatchHostList m a' (.head .user) name =
      if hit then some true else isMatchHostList m a (.head .user) name := by
    rw [hab'.isMatchHostList, hab.isMatchHostList, setHosts_self, List.reverse_append,
      List.reverse_singleton, List.singleton_append, List.findM?, hm]
    cases hit <;> rfl
  rw [search, hx, huser, search, ← hexc, hx, hsys]
  cases hit <;> rfl

/-- Both callbacks on a datagram to the DNS port: where the driver is not paused, the search
decides. -/
theorem verdict_port53 {needCheck : Bool} {request : FltRequest} (hu : request.proto = ipprotoUdp)
    (h53 : request.addrTo.port = 53) {data : Mem} {len : Int} {name : List UInt8}
    (hn : fmtDnsMsg data (len - 1) = some name) :
    tdifwUdpSend m a (tdifwFilter needCheck request).2 data len = some filterDeny ↔
      a.paused = 0 ∧ search m a name = some true := by
  rw [tdifwFilter, if_pos hu, if_pos h53, tdifwUdpSend, if_neg (by simp)]
  by_cases hp : a.paused = 0
  · rw [if_neg (not_not.mpr hp), and_iff_right hp, filter, hn, Option.bind_some]
    cases search m a name with
    | none => simp
    | some found => cases found <;> simp [filterDeny]
  · rw [if_pos hp]
    exact iff_of_false (by decide) fun h => hp h.1

end Verdict

section Blocked

variable {d : Device} {stack : Nat → BracketPair} {a a' : Adf} {b : Blocklist}

/-- What an addition that took place makes of the verdict. -/
theorem verdict_after_add (hab : Abstracts a b) (hp : a.paused = 0) (h : HostName)
    (hab' : Abstracts a' (b.setHosts .user (b.hosts .user ++ [h.host])))
    (hq : SameUpToCase h.labels qs) {header typeClass : List UInt8} (hh : header.length = 12)
    {data : Mem} (hd : bytes data (query header qs typeClass).length = query header qs typeClass)
    {request : FltRequest} (hu : request.proto = ipprotoUdp) (h53 : request.addrTo.port = 53)
    (needCheck : Bool)
    (hx : isMatchHostList (matcher stack) a' (.head .excpt) (extracted qs) = some false) :
    tdifwUdpSend (matcher stack) a' (tdifwFilter needCheck request).2 data
        (query header qs typeClass).length = some filterDeny ↔
      byte '-' ∉ dotted h.labels ∨ search (matcher stack) a (extracted qs) = some true := by
  have hp' : a'.paused = 0 := by
    obtain ⟨-, -, h1, -⟩ := hab
    obtain ⟨-, -, h2, -⟩ := hab'
    rw [h2, ← hp, h1]
    rfl
  rw [verdict_port53 hu h53 (fmtDnsMsg_query h hq hh hd), and_iff_right hp',
    search_after_add hab hab' (matcher_dotted stack h.label hq) hx]
  by_cases hc : byte '-' ∈ dotted h.labels
  · have hc' : (dotted h.labels).contains (byte '-') = true := by simpa using hc
    simp [hc]
  · have hc' : (dotted h.labels).contains (byte '-') = false := by simpa using hc
    simp [hc]

theorem added_abstracts (hab : Abstracts a b) (h : Host) (hg : granted d.pool a = true)
    (hadd : adfHost d a (some (cStr h.chars)) h.chars.length true false = some (true, a')) :
    Abstracts a' (b.setHosts .user (b.hosts .user ++ [h])) := by
  cases ho : d.opened with
  | false =>
    rw [adfHost_closed ho] at hadd
    simp at hadd
  | true =>
    obtain ⟨a'', hadd', hab', -⟩ := adfHost_opened ho hab (cStr h.chars) h.fits true false
    obtain ⟨-, rfl⟩ := Prod.mk.inj (Option.some.inj (hadd'.symm.trans hadd))
    simp only [if_true, hg, received_cStr] at hab'
    exact hab'

end Blocked

/-- In every reachable state that is not paused, a query for a host just added is
denied exactly when the host has no hyphen or the lists had denied it before. -/
theorem query_denied_iff {d : Device} {stack : Nat → BracketPair} {a a' : Adf}
    (hr : Reachable d.pool d.dbg (matcher stack) a) (hp : a.paused = 0) (h : HostName)
    (hg : granted d.pool a = true)
    (hadd : adfHost d a (some (cStr (dotted h.labels))) (dotted h.labels).length true false =
      some (true, a'))
    {qs : List (List UInt8)} (hq : SameUpToCase h.labels qs) {header typeClass : List UInt8}
    (hh : header.length = 12) {data : Mem}
    (hd : bytes data (query header qs typeClass).length = query header qs typeClass)
    {request : FltRequest} (hu : request.proto = ipprotoUdp) (h53 : request.addrTo.port = 53)
    (needCheck : Bool) :
    fmtDnsMsg data ((query header qs typeClass).length - 1) = some (extracted qs) ∧
      (isMatchHostList (matcher stack) a' (.head .excpt) (extracted qs) = some false →
        (tdifwUdpSend (matcher stack) a' (tdifwFilter needCheck request).2 data
            (query header qs typeClass).length = some filterDeny ↔
          byte '-' ∉ dotted h.labels ∨ search (matcher stack) a (extracted qs) = some true)) := by
  obtain ⟨b, hab⟩ := reachable_sound hr
  have hab' := added_abstracts hab h.host hg hadd
  exact ⟨fmtDnsMsg_query h hq hh hd,
    fun hx => verdict_after_add hab hp h hab' hq hh hd hu h53 needCheck hx⟩

def header0 : List UInt8 := List.replicate 12 0

/-- A datagram to port 53. -/
def dnsRequest : FltRequest := { proto := ipprotoUdp, addrTo := [2, 0, 0, 53] }

theorem reachable_blank (stack : Nat → BracketPair) :
    Reachable bumpAllocator false (matcher stack) (initLists blankAdf) :=
  ⟨_, [], [], loaded_blank bumpAllocator, trivial, rfl⟩

/-- An addition to the lists of a fresh driver. -/
theorem added_blank (h : Host) :
    ∃ a', adfHost (openDevice bumpAllocator) (initLists blankAdf) (some (cStr h.chars))
        h.chars.length true false = some (true, a') ∧
      Abstracts a' (Blocklist.setHosts ⟨0, fun _ => []⟩ .user [h]) := by
  obtain ⟨a', hadd, hab', -⟩ := adfHost_opened (d := openDevice bumpAllocator) rfl abstracts_blank
    (cStr h.chars) h.fits true false
  rw [received_cStr] at hab'
  exact ⟨a', hadd, hab'⟩

theorem noException_blank {a' : Adf} {h : Host} (m : Matcher)
    (hab' : Abstracts a' (Blocklist.setHosts ⟨0, fun _ => []⟩ .user [h])) (name : List UInt8) :
    isMatchHostList m a' (.head .excpt) name = some false := by
  rw [hab'.isMatchHostList, setHosts_of_ne _ _ (by decide)]
  rfl

/-- `a.b` -/
def plainName : HostName where
  labels := [[97], [98]]
  two := by decide
  label l hl := by
    simp only [List.mem_cons, List.not_mem_nil, or_false] at hl
    rcases hl with rfl | rfl <;> exact ⟨by decide, by decide, List.all_eq_true.mp (by decide)⟩
  fits := by decide

/-- `a-.b` -/
def hyphenName : HostName where
  labels := [[97, 45], [98]]
  two := by decide
  label l hl := by
    simp only [List.mem_cons, List.not_mem_nil, or_false] at hl
    rcases hl with rfl | rfl <;> exact ⟨by decide, by decide, List.all_eq_true.mp (by decide)⟩
  fits := by decide

def noStack (_ : Nat) : BracketPair := ⟨0, 0, 0, 0⟩

/-- The query for `A.b` is denied once `a.b` is listed. -/
theorem query_denied_plain :
    ∃ a', adfHost (openDevice bumpAllocator) (initLists blankAdf) (some (cStr [97, 46, 98])) 3 true
        false = some (true, a') ∧
      tdifwUdpSend (matcher noStack) a' (tdifwFilter false dnsRequest).2
        (textMem (query header0 [[65], [98]] [0, 1, 0, 1])) 21 = some filterDeny := by
  obtain ⟨a', hadd, hab'⟩ := added_blank plainName.host
  have hq : SameUpToCase plainName.labels [[65], [98]] := rfl
  have hd : bytes (textMem (query header0 [[65], [98]] [0, 1, 0, 1]))
      (query header0 [[65], [98]] [0, 1, 0, 1]).length = query header0 [[65], [98]] [0, 1, 0, 1] := by
    decide
  have hudp : dnsRequest.proto = ipprotoUdp := rfl
  have h := (query_denied_iff (d := openDevice bumpAllocator) (reachable_blank noStack) rfl plainName
    rfl hadd hq rfl hd hudp rfl false).2 (noException_blank _ hab' _)
  exact ⟨a', hadd, h.mpr (Or.inl (by decide))⟩

/-- The query for `a-.b` is allowed although `a-.b` is listed. -/
theorem hyphenated_host_allowed :
    ¬ ∀ (d : Device) (stack : Nat → BracketPair) (a a' : Adf) (h : HostName)
      (qs : List (List UInt8)) (header typeClass : List UInt8) (data : Mem) (request : FltRequest)
      (needCheck : Bool), Reachable d.pool d.dbg (matcher stack) a → a.paused = 0 →
      granted d.pool a = true →
      adfHost d a (some (cStr (dotted h.labels))) (dotted h.labels).length true false =
        some (true, a') →
      SameUpToCase h.labels qs → header.length = 12 → typeClass.length = 4 →
      bytes data (query header qs typeClass).length = query header qs typeClass →
      request.proto = ipprotoUdp → request.addrTo.port = 53 →
      isMatchHostList (matcher stack) a' (.head .excpt) (extracted qs) = some false →
      tdifwUdpSend (matcher stack) a' (tdifwFilter needCheck request).2 data
        (query header qs typeClass).length = some filterDeny := by
  intro h
  obtain ⟨a', hadd, hab'⟩ := added_blank hyphenName.host
  have hx := noException_blank (matcher noStack) hab' (extracted [[97, 45], [98]])
  have hd : bytes (textMem (query header0 [[97, 45], [98]] [0, 1, 0, 1])) 22 =
      query header0 [[97, 45], [98]] [0, 1, 0, 1] := by decide
  have hdeny := h (openDevice bumpAllocator) noStack _ a' hyphenName [[97, 45], [98]] header0
    [0, 1, 0, 1] _ dnsRequest false (reachable_blank noStack) rfl rfl hadd rfl rfl rfl hd rfl rfl hx
  rcases (verdict_after_add abstracts_blank rfl hyphenName hab' rfl rfl hd rfl rfl false hx).mp hdeny
    with hh | hs
  · exact hh (by decide)
  · rw [search, abstracts_blank.isMatchHostList, abstracts_blank.isMatchHostList,
      abstracts_blank.isMatchHostList] at hs
    simp [List.findM?] at hs

end AdFilter.App.Blocking
