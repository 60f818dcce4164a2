import AdFilter.App.ExactMatch
import AdFilter.Slre.Alternation

/-!
# An entry for two

The entry `p|q` in the place of the entries `p` and `q`. The list asks the matcher for one
end, that of the branch which agrees first, so a name that only the other branch ends with
is lost.
-/

namespace AdFilter.App.UnionEntries

open AdFilter.Lib.Ring
open AdFilter.Slre.Match
open AdFilter.Slre.Plain
open AdFilter.Slre.Alternation
open AdFilter.Driver.HostList
open AdFilter.Driver.Abstract
open AdFilter.Driver.Represent
open AdFilter.App.Blocking (matcher noStack)
open AdFilter.App.ExactMatch

/-- The first agreement of the entry with the name ends at the end of the name. -/
def EndsName (entry dst : List UInt8) : Prop := MatchesWhole entry dst ∨ FirstAtTail entry dst

/-- `p` agrees with the name somewhere, and `q` nowhere before. -/
def Preferred (p q dst : List UInt8) : Prop :=
  p ≠ [] ∧ ∃ k, AgreesAt p dst k ∧ ∀ i < k, ¬ AgreesAt q dst i

/-- A name that one of the entries ends with is one for the entry that agrees first. -/
def Unites (p q dst : List UInt8) : Prop :=
  (Preferred p q dst → EndsName q dst → EndsName p dst) ∧
    (¬ Preferred p q dst → EndsName p dst → EndsName q dst)

/-- Whether the end that the matcher gives for an entry is the end of the name. -/
def hits (m : Matcher) (dst entry : List UInt8) : Option Bool :=
  (m entry dst).map (· == (dst.length : Int))

/-- An entry of the list matches, and the later ones, which are asked before it, do not. -/
def Finds (m : Matcher) (dst : List UInt8) (names : List (List UInt8)) : Prop :=
  ∃ earlier e later, names = earlier ++ e :: later ∧ hits m dst e = some true ∧
    ∀ e' ∈ later, hits m dst e' = some false

/-- `isMatchHostList` over the texts of entries: the last one is asked first. -/
def searchNames (m : Matcher) (dst : List UInt8) (names : List (List UInt8)) : Option Bool :=
  (names.reverse.findM? (hits m dst)).map Option.isSome

/-! ## Lists of entries -/

section Search

variable {m : Matcher} {dst : List UInt8}

theorem searchNames_append (xs ys : List (List UInt8)) :
    searchNames m dst (xs ++ ys) = (searchNames m dst ys).bind fun found =>
      if found then some true else searchNames m dst xs := by
  rw [searchNames, List.reverse_append, findM?_append_isSome]
  rfl

theorem searchNames_cons (e : List UInt8) (es : List (List UInt8)) :
    searchNames m dst (e :: es) = (searchNames m dst es).bind fun found =>
      if found then some true else hits m dst e := by
  rw [← List.singleton_append, searchNames_append]
  congr 1
  funext found
  cases found with
  | true => rfl
  | false =>
    rw [searchNames, List.reverse_singleton, List.findM?]
    cases hits m dst e with
    | none => rfl
    | some hit => cases hit <;> rfl

theorem searchNames_false_iff (names : List (List UInt8)) :
    searchNames m dst names = some false ↔ ∀ e ∈ names, hits m dst e = some false := by
  induction names with
  | nil => exact iff_of_true rfl fun _ h => absurd h List.not_mem_nil
  | cons e es ih =>
    rw [searchNames_cons, List.forall_mem_cons, ← ih]
    cases searchNames m dst es with
    | none => simp
    | some found => cases found <;> simp

theorem finds_cons_iff (e : List UInt8) (es : List (List UInt8)) :
    Finds m dst (e :: es) ↔
      Finds m dst es ∨ hits m dst e = some true ∧ ∀ e' ∈ es, hits m dst e' = some false := by
  constructor
  · intro h
    obtain ⟨earlier, d, later, hnames, hd, hlater⟩ := h
    cases earlier with
    | nil =>
      obtain ⟨rfl, rfl⟩ := List.cons.inj hnames
      exact Or.inr ⟨hd, hlater⟩
    | cons e' earlier =>
      obtain ⟨rfl, rfl⟩ := List.cons.inj hnames
      exact Or.inl ⟨earlier, d, later, rfl, hd, hlater⟩
  · intro h
    rcases h with h | ⟨he, hlater⟩
    · obtain ⟨earlier, d, later, rfl, hd, hlater⟩ := h
      exact ⟨e :: earlier, d, later, rfl, hd, hlater⟩
    · exact ⟨[], e, es, rfl, he, hlater⟩

theorem searchNames_true_iff (names : List (List UInt8)) :
    searchNames m dst names = some true ↔ Finds m dst names := by
  induction names with
  | nil =>
    refine iff_of_false (fun h => Bool.false_ne_true (Option.some.inj h)) fun h => ?_
    obtain ⟨earlier, e, later, hnil, -⟩ := h
    exact absurd hnil.symm (List.append_ne_nil_of_right_ne_nil earlier (List.cons_ne_nil e later))
  | cons e es ih =>
    rw [searchNames_cons, finds_cons_iff, ← ih, ← searchNames_false_iff]
    cases searchNames m dst es with
    | none => simp
    | some found => cases found <;> simp

/-- The walk over a ring is the search over the texts of its entries. -/
theorem isMatchHostList_eq {a : Adf} {header : Ptr} {cells : List Ptr}
    (hring : IsRing a.links header cells) (hlive : cells ⊆ a.pool.live) :
    isMatchHostList m a header dst = searchNames m dst (cells.map (entryName a)) := by
  have hbudget : cells.length < budget a :=
    Nat.lt_succ_of_le (List.subperm_of_subset hring.nodup_nodes hlive).length_le
  rw [isMatchHostList, hring.searchBack _ hbudget, searchNames, ← List.map_reverse]
  have h := findM?_map_isSome (id : Ptr → Ptr) (entryName a)
    (fun c => hits m dst (entryName a c)) (hits m dst) fun c (_ : c ∈ cells.reverse) => rfl
  rwa [List.map_id] at h

end Search

/-! ## The entry and the two -/

variable {p q dst : List UInt8}

theorem takesFirst_iff : TakesFirst p q dst ↔ Preferred p q dst := by
  refine and_congr_right fun _ => ?_
  constructor
  · rintro ⟨k, hk, hagree, hnoq⟩
    refine ⟨k, (agrees_drop_iff hk).mp hagree, fun i hi hat => ?_⟩
    have hq := (agrees_drop_iff (Nat.le_trans (Nat.le_of_lt hi) hk)).mpr hat
    rw [hnoq i hi] at hq
    exact Bool.false_ne_true hq
  · rintro ⟨k, hat, hnoq⟩
    have hk : k ≤ dst.length := Nat.le_trans (Nat.le_add_right _ _) hat.1
    refine ⟨k, hk, (agrees_drop_iff hk).mpr hat, fun i hi => ?_⟩
    apply Bool.of_not_eq_true
    intro hq
    exact hnoq i hi ((agrees_drop_iff (Nat.le_trans (Nat.le_of_lt hi) hk)).mp hq)

section Hits

variable (stack : Nat → BracketPair)

theorem hits_plain (hp : p.all isPlain = true) (dst : List UInt8) :
    ∃ r, hits (matcher stack) dst p = some r ∧ (r = true ↔ EndsName p dst) := by
  refine ⟨firstMatch p dst 0 == (dst.length : Int), ?_, ?_⟩
  · rw [hits, matcher, slreMatch_plain stack hp]
    rfl
  · rw [beq_iff_eq]
    exact firstMatch_eq_length_iff p dst

theorem hits_alt (hp : p.all isPlain = true) (hq : q.all isPlain = true) (dst : List UInt8) :
    ∃ r, hits (matcher stack) dst (alt p q) = some r ∧
      (Preferred p q dst → (r = true ↔ EndsName p dst)) ∧
      (¬ Preferred p q dst → (r = true ↔ EndsName q dst)) := by
  refine ⟨firstHit (altAnswer p q) dst 0 == (dst.length : Int), ?_, ?_, ?_⟩
  · rw [hits, matcher, slreMatch_alt stack hp hq]
    rfl
  · intro h
    rw [beq_iff_eq, firstHit_takesFirst (takesFirst_iff.mpr h)]
    exact firstMatch_eq_length_iff p dst
  · intro h
    rw [beq_iff_eq, firstHit_takesSecond fun ht => h (takesFirst_iff.mp ht)]
    exact firstMatch_eq_length_iff q dst

/-- On the name itself the entry `p|q` is the two entries just when the chosen branch ends
the name whenever the other one does. -/
theorem hits_alt_iff (hp : p.all isPlain = true) (hq : q.all isPlain = true)
    (dst : List UInt8) :
    ∃ r rp rq, hits (matcher stack) dst (alt p q) = some r ∧
      hits (matcher stack) dst p = some rp ∧ hits (matcher stack) dst q = some rq ∧
        (r = (rq || rp) ↔ Unites p q dst) := by
  obtain ⟨r, hr, hfirst, hsecond⟩ := hits_alt stack hp hq dst
  obtain ⟨rp, hrp, hpEnds⟩ := hits_plain stack hp dst
  obtain ⟨rq, hrq, hqEnds⟩ := hits_plain stack hq dst
  refine ⟨r, rp, rq, hr, hrp, hrq, ?_⟩
  rw [Bool.eq_iff_iff, Bool.or_eq_true, hpEnds, hqEnds, Unites]
  by_cases h : Preferred p q dst
  · rw [hfirst h]
    constructor
    · intro heq
      exact ⟨fun _ hends => heq.mpr (Or.inl hends), fun hnot => absurd h hnot⟩
    · intro hunites
      exact ⟨Or.inr, fun hor => hor.elim (hunites.1 h) id⟩
  · rw [hsecond h]
    constructor
    · intro heq
      exact ⟨fun hyes => absurd hyes h, fun _ hends => heq.mpr (Or.inr hends)⟩
    · intro hunites
      exact ⟨Or.inl, fun hor => hor.elim id (hunites.2 h)⟩

end Hits

/-- A list with the entry `p|q` has the answers of the list with the entries `p` and `q`
just when the search does not get past the later entries, or an earlier entry matches, or
the branch that agrees first ends the name whenever the other one does. -/
theorem alternation_iff (stack : Nat → BracketPair) {a a' : Adf} {header header' : Ptr}
    {cells cells' : List Ptr} (hring : IsRing a.links header cells) (hlive : cells ⊆ a.pool.live)
    (hring' : IsRing a'.links header' cells') (hlive' : cells' ⊆ a'.pool.live)
    {pre post : List (List UInt8)} (hp : p.all isPlain = true) (hq : q.all isPlain = true)
    (hnames : cells.map (entryName a) = pre ++ alt p q :: post)
    (hnames' : cells'.map (entryName a') = pre ++ p :: q :: post) (dst : List UInt8) :
    isMatchHostList (matcher stack) a header dst = isMatchHostList (matcher stack) a' header' dst ↔
      (∃ e ∈ post, hits (matcher stack) dst e ≠ some false) ∨ Finds (matcher stack) dst pre ∨
        Unites p q dst := by
  have hpost : (∃ e ∈ post, hits (matcher stack) dst e ≠ some false) ↔
      searchNames (matcher stack) dst post ≠ some false := by
    rw [ne_eq, searchNames_false_iff]
    simp
  rw [hpost, ← searchNames_true_iff, isMatchHostList_eq hring hlive,
    isMatchHostList_eq hring' hlive', hnames, hnames', searchNames_append, searchNames_append,
    searchNames_cons, searchNames_cons, searchNames_cons]
  obtain ⟨r, rp, rq, hr, hrp, hrq, hunites⟩ := hits_alt_iff stack hp hq dst
  rw [hr, hrp, hrq, ← hunites]
  cases searchNames (matcher stack) dst post with
  | none => simp
  | some found =>
    cases found with
    | true => simp
    | false =>
      -- the two answers, with the rest of the list where both branches fail
      cases hpre : searchNames (matcher stack) dst pre with
      | none => cases r <;> cases rp <;> cases rq <;> simp
      | some earlier => cases earlier <;> cases r <;> cases rp <;> cases rq <;> simp

/-- The user list alone. -/
def userList (hosts : List Host) : Blocklist where
  paused := 0
  hosts list := if list = .user then hosts else []

theorem exists_userList (hosts : List Host) :
    ∃ a cells, IsRing a.links (.head .user) cells ∧ cells ⊆ a.pool.live ∧
      cells.map (entryName a) = hosts.map Host.chars := by
  obtain ⟨a, hab⟩ := exists_abstracts (userList hosts)
  exact ⟨a, entries_of_abstracts hab .user⟩

/-- `a` -/
def hostA : Host := ⟨[97], by decide, by decide⟩

/-- `ab` -/
def hostAb : Host := ⟨[97, 98], by decide, by decide⟩

/-- `a|b` -/
def hostAOrB : Host := ⟨alt [97] [98], by decide, by decide⟩

/-- `a|ab` -/
def hostAOrAB : Host := ⟨alt [97] [97, 98], by decide, by decide⟩

/-- The entry `a|b` and the entries `a` and `b` have one answer for the name `b`. -/
theorem alternation_own_name : ∃ (a a' : Adf) (cells cells' : List Ptr),
    cells.map (entryName a) = [alt [97] [98]] ∧ cells'.map (entryName a') = [[97], [98]] ∧
      isMatchHostList (matcher noStack) a (.head .user) [98] =
        isMatchHostList (matcher noStack) a' (.head .user) [98] := by
  obtain ⟨a, cells, hring, hlive, hnames⟩ := exists_userList [hostAOrB]
  obtain ⟨a', cells', hring', hlive', hnames'⟩ := exists_userList [hostA, hostB]
  have hplain : ∀ b : UInt8, isPlain b = true → [b].all isPlain = true := by simp
  have hnot : ∀ k, ¬ AgreesAt [97] [98] k := by
    rintro k ⟨hk, hall⟩
    obtain rfl : k = 0 := Nat.le_zero.mp (Nat.le_of_succ_le_succ hk)
    exact absurd (hall 0 Nat.one_pos) (by decide)
  have hunites : Unites [97] [98] [98] := by
    refine ⟨fun h => ?_, fun _ hends => ?_⟩
    · obtain ⟨-, k, hat, -⟩ := h
      exact absurd hat (hnot k)
    · rcases hends with hwhole | htail
      · exact absurd hwhole.2 (hnot 0)
      · exact absurd htail.2.1 (hnot _)
  refine ⟨a, a', cells, cells', hnames, hnames', ?_⟩
  have hone : cells.map (entryName a) = [] ++ alt [97] [98] :: [] := hnames
  have htwo : cells'.map (entryName a') = [] ++ [97] :: [98] :: [] := hnames'
  exact (alternation_iff noStack hring hlive hring' hlive' (hplain 97 (by decide))
    (hplain 98 (by decide)) hone htwo [98]).mpr (Or.inr (Or.inr hunites))

/-- The entry `a|ab` does not match the name `ab`: the branch `a` is taken, and ends before
the end of it. -/
theorem taken_branch_hides : ∃ (a a' : Adf) (cells cells' : List Ptr),
    IsRing a.links (.head .user) cells ∧ IsRing a'.links (.head .user) cells' ∧
    cells.map (entryName a) = [alt [97] [97, 98]] ∧ cells'.map (entryName a') = [[97], [97, 98]] ∧
      isMatchHostList (matcher noStack) a (.head .user) [97, 98] = some false ∧
      isMatchHostList (matcher noStack) a' (.head .user) [97, 98] = some true := by
  obtain ⟨a, cells, hring, hlive, hnames⟩ := exists_userList [hostAOrAB]
  obtain ⟨a', cells', hring', hlive', hnames'⟩ := exists_userList [hostA, hostAb]
  have ha : [(97 : UInt8)].all isPlain = true := by decide
  have hab : [(97 : UInt8), 98].all isPlain = true := by decide
  refine ⟨a, a', cells, cells', hring, hring', hnames, hnames', ?_, ?_⟩
  · rw [isMatchHostList_eq hring hlive, hnames]
    simp only [List.map_cons, List.map_nil, hostAOrAB, searchNames_cons, hits, matcher,
      slreMatch_alt noStack ha hab]
    decide
  · rw [isMatchHostList_eq hring' hlive', hnames']
    simp only [List.map_cons, List.map_nil, hostA, hostAb, searchNames_cons, hits, matcher,
      slreMatch_plain noStack ha, slreMatch_plain noStack hab]
    decide

end AdFilter.App.UnionEntries
