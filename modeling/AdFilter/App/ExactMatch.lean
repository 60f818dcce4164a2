import AdFilter.App.Blocking

/-!
# What an entry matches

`isMatchHostList` takes an entry for a match when the search of the matcher ends at the
end of the name. It does not look at where the match starts.
-/

namespace AdFilter.App.ExactMatch

open AdFilter.Lib.Ring
open AdFilter.Slre.Match
open AdFilter.Slre.Plain
open AdFilter.Driver.HostList
open AdFilter.Driver.Abstract
open AdFilter.Driver.Represent
open AdFilter.App.Blocking (matcher added_blank noStack)

/-- The text of an entry, as it is handed to the matcher. -/
def entryName (a : Adf) (entry : Ptr) : List UInt8 := cString (a.text (a.name entry).buffer)

/-- The entry agrees with the name from position `k` on, up to case and with any character
for a dot. -/
def AgreesAt (entry dst : List UInt8) (k : Nat) : Prop :=
  k + entry.length ≤ dst.length ∧
    ∀ i < entry.length,
      byteAt entry i = byte '.' ∨ toLower (byteAt entry i) = toLower (byteAt dst (k + i))

def MatchesWhole (entry dst : List UInt8) : Prop :=
  entry.length = dst.length ∧ AgreesAt entry dst 0

/-- The entry is shorter than the name and agrees with its tail, and with nothing before. -/
def FirstAtTail (entry dst : List UInt8) : Prop :=
  entry.length < dst.length ∧ AgreesAt entry dst (dst.length - entry.length) ∧
    ∀ k < dst.length - entry.length, ¬ AgreesAt entry dst k

/-! ## One entry -/

theorem agrees_iff {entry sub : List UInt8} : agrees entry sub = true ↔ AgreesAt entry sub 0 := by
  induction entry generalizing sub with
  | nil => simp [agrees, AgreesAt]
  | cons e es ih =>
    cases sub with
    | nil => simp [agrees, AgreesAt]
    | cons c cs =>
      rw [agrees, Bool.and_eq_true, ih]
      simp only [AgreesAt, List.length_cons, Nat.zero_add, Nat.add_le_add_iff_right]
      constructor
      · rintro ⟨hec, hle, hall⟩
        refine ⟨hle, fun i hi => ?_⟩
        cases i with
        | zero => simpa [byteAt] using hec
        | succ i => simpa [byteAt] using hall i (Nat.lt_of_succ_lt_succ hi)
      · intro h
        refine ⟨by simpa [byteAt] using h.2 0 (Nat.succ_pos _), h.1, fun i hi => ?_⟩
        simpa [byteAt] using h.2 (i + 1) (Nat.succ_lt_succ hi)

theorem agrees_drop_iff {entry dst : List UInt8} {k : Nat} (hk : k ≤ dst.length) :
    agrees entry (dst.drop k) = true ↔ AgreesAt entry dst k := by
  rw [agrees_iff]
  have hbyte : ∀ i, byteAt (dst.drop k) (0 + i) = byteAt dst (k + i) := by
    intro i
    simp [byteAt, List.getD]
  simp only [AgreesAt, hbyte, List.length_drop]
  refine and_congr_left fun _ => ?_
  omega

/-- The end of the first agreement is the end of the name. -/
theorem firstMatch_eq_length_iff (entry dst : List UInt8) :
    firstMatch entry dst 0 = dst.length ↔ MatchesWhole entry dst ∨ FirstAtTail entry dst := by
  constructor
  · intro h
    rcases firstMatch_cases entry dst 0 with ⟨j, hj, hagree, hfirst, heq⟩ | ⟨-, heq⟩
    · have hlen : entry.length + j = dst.length := by omega
      have hat := (agrees_drop_iff hj).mp hagree
      cases j with
      | zero => exact Or.inl ⟨by omega, hat⟩
      | succ j =>
        have hstart : dst.length - entry.length = j + 1 := by omega
        refine Or.inr ⟨by omega, by rwa [hstart], fun k hk hagreeK => ?_⟩
        have hk' := (agrees_drop_iff (by omega)).mpr hagreeK
        rw [hfirst k (by omega)] at hk'
        exact Bool.false_ne_true hk'
    · rw [heq, noMatch] at h
      omega
  · intro h
    obtain ⟨k, hlen, hat, hbefore⟩ : ∃ k, k + entry.length = dst.length ∧ AgreesAt entry dst k ∧
        ∀ i < k, ¬ AgreesAt entry dst i := by
      rcases h with ⟨hlen, hat⟩ | ⟨hlt, hat, hbefore⟩
      · exact ⟨0, by omega, hat, fun i hi => absurd hi (Nat.not_lt_zero i)⟩
      · exact ⟨_, by omega, hat, hbefore⟩
    have hagree := (agrees_drop_iff (by omega)).mpr hat
    rcases firstMatch_cases entry dst 0 with ⟨j, hj, hagreeJ, hfirst, heq⟩ | ⟨hnone, -⟩
    · rcases Nat.lt_trichotomy j k with hjk | rfl | hkj
      · exact absurd ((agrees_drop_iff hj).mp hagreeJ) (hbefore j hjk)
      · rw [heq]
        omega
      · rw [hfirst k hkj] at hagree
        exact absurd hagree Bool.false_ne_true
    · rw [hnone k (by omega)] at hagree
      exact absurd hagree Bool.false_ne_true

/-! ## A whole list -/

variable {a : Adf} {header : Ptr} {cells : List Ptr}

/-- The answer of the search, for a ring of entries in live blocks. -/
theorem isMatchHostList_plain (hring : IsRing a.links header cells) (hlive : cells ⊆ a.pool.live)
    (hplain : ∀ c ∈ cells, (entryName a c).all isPlain = true) (stack : Nat → BracketPair)
    (dst : List UInt8) : ∃ r, isMatchHostList (matcher stack) a header dst = some r ∧
      (r = true ↔ ∃ c ∈ cells,
        MatchesWhole (entryName a c) dst ∨ FirstAtTail (entryName a c) dst) := by
  have hbudget : cells.length < budget a :=
    Nat.lt_succ_of_le (List.subperm_of_subset hring.nodup_nodes hlive).length_le
  let hit (c : Ptr) : Bool := firstMatch (entryName a c) dst 0 == (dst.length : Int)
  have hfind : cells.reverse.findM? (fun c =>
      (matcher stack (entryName a c) dst).map (· == (dst.length : Int))) =
        some (cells.reverse.find? hit) := by
    have h := findM?_map_some (id : Ptr → Ptr)
      (fun c => (matcher stack (entryName a c) dst).map (· == (dst.length : Int))) hit
      fun c (hc : c ∈ cells.reverse) => by
        rw [id, matcher, slreMatch_plain stack (hplain c (List.mem_reverse.mp hc)), Option.map_some]
    rwa [List.map_id, Option.map_id_fun, id] at h
  refine ⟨(cells.reverse.find? hit).isSome, ?_, ?_⟩
  · rw [isMatchHostList, hring.searchBack _ hbudget]
    exact congrArg (Option.map Option.isSome) hfind
  · simp [hit, List.find?_isSome, firstMatch_eq_length_iff]

/-- The search is exact just when some entry matches the whole name, or no entry has its
first agreement with the name at the tail of it. -/
theorem isMatchHostList_exact_iff (hring : IsRing a.links header cells)
    (hlive : cells ⊆ a.pool.live) (hplain : ∀ c ∈ cells, (entryName a c).all isPlain = true)
    (stack : Nat → BracketPair) (dst : List UInt8) :
    (∃ r, isMatchHostList (matcher stack) a header dst = some r ∧
        (r = true ↔ ∃ c ∈ cells, MatchesWhole (entryName a c) dst)) ↔
      (∃ c ∈ cells, MatchesWhole (entryName a c) dst) ∨
        ∀ c ∈ cells, ¬ FirstAtTail (entryName a c) dst := by
  obtain ⟨r, hr, htrue⟩ := isMatchHostList_plain hring hlive hplain stack dst
  constructor
  · rintro ⟨r', hr', hexact⟩
    obtain rfl := Option.some.inj (hr.symm.trans hr')
    by_cases hwhole : ∃ c ∈ cells, MatchesWhole (entryName a c) dst
    · exact Or.inl hwhole
    · refine Or.inr fun c hc htail => hwhole (hexact.mp (htrue.mpr ⟨c, hc, Or.inr htail⟩))
  · intro h
    refine ⟨r, hr, htrue.trans ⟨?_, ?_⟩⟩
    · rintro ⟨c, hc, hwhole | htail⟩
      · exact ⟨c, hc, hwhole⟩
      · exact h.resolve_right fun hnone => hnone c hc htail
    · rintro ⟨c, hc, hwhole⟩
      exact ⟨c, hc, Or.inl hwhole⟩

/-- The entries of a driver list, in live blocks, with the hosts it stands for. -/
theorem entries_of_abstracts {b : Blocklist} (hab : Abstracts a b) (list : AdHost) :
    ∃ cells, IsRing a.links (.head list) cells ∧ cells ⊆ a.pool.live ∧
      cells.map (entryName a) = (b.hosts list).map Host.chars := by
  obtain ⟨es, hr, -, hhosts⟩ := hab
  refine ⟨(es list).map Entry.cell, hr.ring list, ?_, ?_⟩
  · intro c hc
    obtain ⟨e, he, rfl⟩ := List.mem_map.mp hc
    exact hr.cell_live he
  · rw [← hhosts, hosts, List.map_map, List.map_map]
    exact List.map_congr_left fun e he => (hr.holds list e he).pattern

/-- `b` -/
def hostB : Host := ⟨[98], by decide, by decide⟩

/-- A list with the entry `b`. -/
theorem listed_b : ∃ a cells, IsRing a.links (.head .user) cells ∧ cells ⊆ a.pool.live ∧
    cells.map (entryName a) = [[98]] := by
  obtain ⟨a, -, hab⟩ := added_blank hostB
  obtain ⟨cells, hring, hlive, hnames⟩ := entries_of_abstracts hab .user
  exact ⟨a, cells, hring, hlive, hnames⟩

theorem plain_of_names {names : List (List UInt8)} (hnames : cells.map (entryName a) = names)
    (hplain : ∀ e ∈ names, e.all isPlain = true) : ∀ c ∈ cells, (entryName a c).all isPlain = true :=
  fun _ hc => hplain _ (hnames ▸ List.mem_map_of_mem hc)

/-- The entry `b` matches the name `b`. -/
theorem isMatchHostList_exact_own_name : ∃ (a : Adf) (cells : List Ptr),
    cells.map (entryName a) = [[98]] ∧ ∃ r, isMatchHostList (matcher noStack) a (.head .user) [98] = some r ∧
      (r = true ↔ ∃ c ∈ cells, MatchesWhole (entryName a c) [98]) := by
  obtain ⟨a, cells, hring, hlive, hnames⟩ := listed_b
  refine ⟨a, cells, hnames, ?_⟩
  refine (isMatchHostList_exact_iff hring hlive (plain_of_names hnames (by decide)) noStack [98]).mpr
    (Or.inr fun c hc htail => ?_)
  have hname : entryName a c ∈ [[98]] := hnames ▸ List.mem_map_of_mem hc
  have hlt := htail.1
  rw [List.mem_singleton.mp hname] at hlt
  exact absurd hlt (by decide)

/-- The entry `b` also matches the name `ab`. -/
theorem tail_of_name_matched : ∃ a cells, IsRing a.links (.head .user) cells ∧
    cells.map (entryName a) = [[98]] ∧
    isMatchHostList (matcher noStack) a (.head .user) [97, 98] = some true ∧
      ¬ ∃ c ∈ cells, MatchesWhole (entryName a c) [97, 98] := by
  obtain ⟨a, cells, hring, hlive, hnames⟩ := listed_b
  have hname : ∀ c ∈ cells, entryName a c = [98] := fun c hc =>
    List.mem_singleton.mp (hnames ▸ List.mem_map_of_mem hc)
  obtain ⟨r, hr, htrue⟩ :=
    isMatchHostList_plain hring hlive (plain_of_names hnames (by decide)) noStack [97, 98]
  obtain ⟨c, hc⟩ : ∃ c, c ∈ cells := by
    cases cells with
    | nil => exact absurd hnames (by simp)
    | cons c cells => exact ⟨c, List.mem_cons_self⟩
  have htail : FirstAtTail (entryName a c) [97, 98] := by
    rw [hname c hc, FirstAtTail, ← agrees_drop_iff (by decide)]
    refine ⟨by decide, by decide, fun k hk hat => ?_⟩
    obtain rfl : k = 0 := Nat.lt_one_iff.mp hk
    rw [← agrees_drop_iff (by decide)] at hat
    exact absurd hat (by decide)
  refine ⟨a, cells, hring, hnames, ?_, ?_⟩
  · rw [hr, htrue.mpr ⟨c, hc, Or.inr htail⟩]
  · rintro ⟨d, hd, hwhole⟩
    have hlen := hwhole.1
    rw [hname d hd] at hlen
    exact absurd hlen (by decide)

end AdFilter.App.ExactMatch
