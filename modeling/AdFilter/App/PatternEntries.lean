import AdFilter.App.Blocking
import AdFilter.Slre.Search

/-!
# What a list of patterns blocks

Entries are patterns, and a name is blocked where the matcher ends exactly at its end. So
a blocked name has a tail that the pattern of an entry means. Where the patterns end with
`$` the converse holds too, and the verdict is that of the meanings.
-/

namespace AdFilter.App.PatternEntries

open AdFilter.Lib
open AdFilter.Lib.Regex (Spans)
open AdFilter.Lib.Pool
open AdFilter.Nt
open AdFilter.Slre.Match
open AdFilter.Slre.Syntax
open AdFilter.Slre.Soundness
open AdFilter.Slre.Search
open AdFilter.Tdi.Ipc
open AdFilter.Driver.HostList
open AdFilter.Driver.Abstract
open AdFilter.Driver.Represent
open AdFilter.Driver.Filter
open AdFilter.Driver.Refine
open AdFilter.Driver.Reach
open AdFilter.App.Blocking

variable {stack : Nat → BracketPair} {a : Adf} {b : Blocklist} {name : List UInt8}

/-- The entry is the text of a pattern that means a tail of the name, up to case. -/
def MeansTail (h : Host) (name : List UInt8) : Prop :=
  ∀ pat : Pattern, pat.text = h.chars → pat.MatchesTo true name name.length

theorem ignoreCase_flag : (slreIgnoreCase &&& slreIgnoreCase != 0) = true := by decide

/-- An entry that the matcher ends at the end of the name. -/
theorem meansTail_of_hit {h : Host} (hm : matcher stack h.chars name = some (name.length : Int)) :
    MeansTail h name := by
  intro pat htext
  rw [matcher, ← htext] at hm
  have hmatch := slreMatch_sound hm (Int.natCast_nonneg _) (Int.le_refl _)
  rwa [ignoreCase_flag, Int.toNat_natCast] at hmatch

theorem isMatchHostList_hit (hab : Abstracts a b) {list : AdHost}
    (h : isMatchHostList (matcher stack) a (.head list) name = some true) :
    ∃ e ∈ b.hosts list, matcher stack e.chars name = some (name.length : Int) := by
  rw [hab.isMatchHostList] at h
  obtain ⟨e, he, hm⟩ := Ring.exists_of_findM?_isSome h
  refine ⟨e, List.mem_reverse.mp he, ?_⟩
  cases hmatch : matcher stack e.chars name with
  | none =>
    rw [hmatch] at hm
    cases hm
  | some n =>
    rw [hmatch, Option.map_some, Option.some.injEq, beq_iff_eq] at hm
    rw [hm]

/-- A name is blocked only where an entry of the user's or the system's list means a tail
of it. -/
theorem search_sound (hab : Abstracts a b) (h : search (matcher stack) a name = some true) :
    ∃ e, (e ∈ b.hosts .user ∨ e ∈ b.hosts .sys) ∧ MeansTail e name := by
  rw [search] at h
  cases hexcpt : isMatchHostList (matcher stack) a (.head .excpt) name with
  | none =>
    rw [hexcpt] at h
    cases h
  | some found =>
    cases found with
    | true =>
      rw [hexcpt] at h
      cases h
    | false =>
      rw [hexcpt] at h
      dsimp only at h
      cases huser : isMatchHostList (matcher stack) a (.head .user) name with
      | none =>
        rw [huser] at h
        cases h
      | some found =>
        cases found with
        | true =>
          obtain ⟨e, he, hm⟩ := isMatchHostList_hit hab huser
          exact ⟨e, Or.inl he, meansTail_of_hit hm⟩
        | false =>
          rw [huser] at h
          obtain ⟨e, he, hm⟩ := isMatchHostList_hit hab h
          exact ⟨e, Or.inr he, meansTail_of_hit hm⟩

/-! ## Patterns that end with the name -/

/-- An exact pattern with a `$` at its end. -/
structure Tail where
  pat : Pattern
  exact : Pattern.IsExact pat
  dollar : ∃ its, pat.first = its ++ [Item.dollar]

theorem spans_dollar {s : List UInt8} {its : List Item} {i k : Nat}
    (h : Spans s (itemsRe true (its ++ [Item.dollar])) i k) : k = s.length := by
  induction its generalizing i with
  | nil =>
    obtain ⟨m, ⟨him, hi⟩, hk⟩ := h
    have hmk : m = k := hk
    rw [← hmk, ← him, hi]
  | cons it its ih =>
    obtain ⟨m, -, hrest⟩ := h
    exact ih hrest

theorem Tail.end_eq (t : Tail) {s : List UInt8} {i k : Nat} (h : Spans s (t.pat.re true) i k) :
    k = s.length := by
  obtain ⟨its, hits⟩ := t.dollar
  rw [Pattern.re, t.exact.one, Regex.spans_union] at h
  obtain ⟨r, hr, hspan⟩ := h
  rw [List.map_singleton, List.mem_singleton, hits] at hr
  exact spans_dollar (hr ▸ hspan)

/-- The matcher has an answer for such an entry, which is the end of the name exactly if
the pattern means a tail of it. -/
theorem Tail.matcher (t : Tail) (stack : Nat → BracketPair) (name : List UInt8) :
    ∃ n, Blocking.matcher stack t.pat.text name = some n ∧
      (n = name.length ↔ t.pat.MatchesTo true name name.length) := by
  rcases slreMatch_leftmost stack t.exact name slreIgnoreCase with
    ⟨i, k, hk, hstart, hspan, -⟩ | ⟨⟨n, hneg, hn⟩, hnone⟩
  · rw [ignoreCase_flag] at hspan
    obtain rfl := t.end_eq hspan
    exact ⟨_, hk, iff_of_true rfl ⟨i, hstart, hspan⟩⟩
  · rw [ignoreCase_flag] at hnone
    exact ⟨n, hn, iff_of_false (by omega) (hnone _)⟩

/-- The entry means a tail of the name. -/
def TailOf (h : Host) (name : List UInt8) : Prop :=
  ∃ t : Tail, t.pat.text = h.chars ∧ t.pat.MatchesTo true name name.length

/-- Every entry is the text of such a pattern. -/
def AllTails (b : Blocklist) : Prop :=
  ∀ list, ∀ h ∈ b.hosts list, ∃ t : Tail, t.pat.text = h.chars

section Verdict

/-- The matcher as a function, where it has an answer. -/
def answer (stack : Nat → BracketPair) (re s : List UInt8) : Int :=
  (matcher stack re s).getD noMatch

theorem matcher_tail (stack : Nat → BracketPair) {h : Host} (ht : ∃ t : Tail, t.pat.text = h.chars)
    (name : List UInt8) :
    matcher stack h.chars name = total (answer stack) h.chars name ∧
      (hits (answer stack) h name = true ↔ TailOf h name) := by
  obtain ⟨t, htext⟩ := ht
  obtain ⟨n, hn, hiff⟩ := t.matcher stack name
  rw [htext] at hn
  have hanswer : answer stack h.chars name = n := by rw [answer, hn, Option.getD_some]
  refine ⟨by rw [hn, total, hanswer], ?_⟩
  rw [hits, hanswer, beq_iff_eq]
  constructor
  · exact fun heq => ⟨t, htext, hiff.mp heq⟩
  · rintro ⟨u, hutext, hu⟩
    obtain ⟨m, hm, hmiff⟩ := u.matcher stack name
    rw [hutext, hn] at hm
    obtain rfl := Option.some.inj hm
    exact hmiff.mpr hu

theorem isMatchHostList_tails (hab : Abstracts a b) (ht : AllTails b) (list : AdHost) :
    isMatchHostList (matcher stack) a (.head list) name =
      isMatchHostList (total (answer stack)) a (.head list) name := by
  have heach : ∀ h ∈ (b.hosts list).reverse,
      (matcher stack (id h).chars name).map (· == (name.length : Int)) =
        (total (answer stack) (id h).chars name).map (· == (name.length : Int)) := by
    intro h hh
    rw [id, (matcher_tail stack (ht list h (List.mem_reverse.mp hh)) name).1]
  have hsame := Ring.findM?_map_isSome (id : Host → Host) (id : Host → Host)
    (fun h => (matcher stack h.chars name).map (· == (name.length : Int)))
    (fun h => (total (answer stack) h.chars name).map (· == (name.length : Int))) heach
  rw [List.map_id] at hsame
  rw [hab.isMatchHostList, hab.isMatchHostList, hsame]

/-- With such entries the search always ends, and with the verdict of the meanings. -/
theorem search_tails (hab : Abstracts a b) (ht : AllTails b) (stack : Nat → BracketPair)
    (name : List UInt8) :
    ∃ r, search (matcher stack) a name = some r ∧
      (r = true ↔ (∀ h ∈ b.hosts .excpt, ¬ TailOf h name) ∧
        ∃ h, (h ∈ b.hosts .user ∨ h ∈ b.hosts .sys) ∧ TailOf h name) := by
  have hsearch : search (matcher stack) a name = search (total (answer stack)) a name := by
    rw [search, search, isMatchHostList_tails hab ht, isMatchHostList_tails hab ht,
      isMatchHostList_tails hab ht]
  have hmeans : ∀ list, ∀ h ∈ b.hosts list, (hits (answer stack) h name = true ↔ TailOf h name) :=
    fun list h hh => (matcher_tail stack (ht list h hh) name).2
  refine ⟨_, hsearch.trans (search_total (answer stack) hab name), ?_⟩
  rw [found_iff]
  apply and_congr
  · refine forall₂_congr fun h hh => ?_
    rw [← hmeans .excpt h hh, Bool.not_eq_true]
  · refine exists_congr fun h => and_congr_right fun hh => ?_
    rcases hh with hh | hh
    · exact hmeans .user h hh
    · exact hmeans .sys h hh

variable {p : Allocator Ptr} {dbg : Bool} {needCheck : Bool} {request : FltRequest}

/-- A datagram that is dropped has a name, and the driver is not paused. -/
theorem name_of_denied {m : Matcher} {needCheck : Bool} {data : Mem} {len : Int}
    (h : tdifwUdpSend m a needCheck data len = some filterDeny) :
    ∃ name, fmtDnsMsg data (len - 1) = some name := by
  rw [tdifwUdpSend] at h
  split_ifs at h with hcheck hpaused
  · exact absurd h (by decide)
  · exact absurd h (by decide)
  · obtain ⟨found, hfound, -⟩ := Option.map_eq_some_iff.mp h
    obtain ⟨name, hname, -⟩ := Option.bind_eq_some_iff.mp hfound
    exact ⟨name, hname⟩

/-- In every state the driver reaches, a datagram to the DNS port is dropped only if an entry
of the user's or the system's list means a tail of the name in it. -/
theorem denied_means_tail (hr : Reachable p dbg (matcher stack) a)
    (hu : request.proto = ipprotoUdp) (h53 : request.addrTo.port = 53) :
    (∃ b, Abstracts a b) ∧ ∀ b, Abstracts a b → ∀ (data : Mem) (len : Int),
      tdifwUdpSend (matcher stack) a (tdifwFilter needCheck request).2 data len = some filterDeny →
        ∃ name, fmtDnsMsg data (len - 1) = some name ∧
          ∃ e, (e ∈ b.hosts .user ∨ e ∈ b.hosts .sys) ∧ MeansTail e name := by
  refine ⟨reachable_sound hr, fun b hab data len hdeny => ?_⟩
  obtain ⟨name, hn⟩ := name_of_denied hdeny
  exact ⟨name, hn, search_sound hab ((verdict_port53 hu h53 hn).mp hdeny).2⟩

/-- `a*a$` -/
def hostManyA : Host := ⟨manyA.text, by decide, by decide⟩

def tailManyA : Tail :=
  ⟨manyA, ⟨rfl, rfl⟩, [.piece charA (.star false), .piece charA .once], rfl⟩

/-- The list of `a*a$` alone. -/
def listManyA : Blocklist := Blocklist.setHosts ⟨0, fun _ => []⟩ .user [hostManyA]

theorem reachable_listManyA : ∃ a, Reachable bumpAllocator false (matcher noStack) a ∧
    Abstracts a listManyA ∧ a.paused = 0 := by
  obtain ⟨a, hr, hab⟩ := reachable_added (matcher noStack) [hostManyA]
  obtain ⟨-, -, hpaused, -⟩ := id hab
  exact ⟨a, hr, hab, hpaused⟩

theorem allTails_listManyA : AllTails listManyA := by
  intro list h hh
  cases list with
  | user =>
    obtain rfl := List.mem_singleton.mp hh
    exact ⟨tailManyA, rfl⟩
  | excpt => exact absurd hh List.not_mem_nil
  | sys => exact absurd hh List.not_mem_nil

/-- It means the tail `a` of `b.a`, and no exception does. -/
theorem listManyA_means : (∀ h ∈ listManyA.hosts .excpt, ¬ TailOf h [98, 46, 97]) ∧
    ∃ h, (h ∈ listManyA.hosts .user ∨ h ∈ listManyA.hosts .sys) ∧ TailOf h [98, 46, 97] := by
  refine ⟨fun h hh => absurd hh List.not_mem_nil, hostManyA, Or.inl List.mem_cons_self, tailManyA, rfl,
    2, ⟨by decide, nofun⟩, Or.inl ?_⟩
  exact ⟨2, Relation.ReflTransGen.refl, 3, ⟨rfl, 97, rfl, by decide⟩, 3, ⟨rfl, rfl⟩, rfl⟩

/-- The query for `b.a` -/
def queryBA : Mem := textMem (query header0 [[98], [97]] [0, 1, 0, 1])

theorem fmtDnsMsg_queryBA : fmtDnsMsg queryBA (21 - 1) = some [98, 46, 97] := by decide

/-- The query for `b.a` is dropped by `a*a$`. -/
theorem denied_means_tail_entry :
    ∃ a, Reachable bumpAllocator false (matcher noStack) a ∧
      tdifwUdpSend (matcher noStack) a (tdifwFilter false dnsRequest).2 queryBA 21 =
        some filterDeny ∧
      ∃ name, fmtDnsMsg queryBA (21 - 1) = some name ∧
        ∃ e, (e ∈ listManyA.hosts .user ∨ e ∈ listManyA.hosts .sys) ∧ MeansTail e name := by
  obtain ⟨a, hr, hab, hpaused⟩ := reachable_listManyA
  obtain ⟨found, hsearch, hfound⟩ := search_tails hab allTails_listManyA noStack [98, 46, 97]
  have hdeny : tdifwUdpSend (matcher noStack) a (tdifwFilter false dnsRequest).2 queryBA 21 =
      some filterDeny := by
    rw [verdict_port53 rfl rfl fmtDnsMsg_queryBA, hsearch, hfound.mpr listManyA_means]
    exact ⟨hpaused, rfl⟩
  exact ⟨a, hr, hdeny, (denied_means_tail hr rfl rfl).2 _ hab queryBA 21 hdeny⟩

/-- In every state the driver reaches with entries that end with `$`, a datagram to the DNS
port is dropped exactly if the driver is not paused, no exception means a tail of its name,
and a user or system entry does. -/
theorem denied_iff_tail (hr : Reachable p dbg (matcher stack) a)
    (hu : request.proto = ipprotoUdp) (h53 : request.addrTo.port = 53) :
    (∃ b, Abstracts a b) ∧ ∀ b, Abstracts a b → AllTails b →
      ∀ (data : Mem) (len : Int) (name : List UInt8), fmtDnsMsg data (len - 1) = some name →
        (tdifwUdpSend (matcher stack) a (tdifwFilter needCheck request).2 data len =
            some filterDeny ↔
          a.paused = 0 ∧ (∀ h ∈ b.hosts .excpt, ¬ TailOf h name) ∧
            ∃ h, (h ∈ b.hosts .user ∨ h ∈ b.hosts .sys) ∧ TailOf h name) := by
  refine ⟨reachable_sound hr, fun b hab ht data len name hn => ?_⟩
  obtain ⟨r, hsearch, hiff⟩ := search_tails hab ht stack name
  rw [verdict_port53 hu h53 hn, hsearch, ← hiff, Option.some.injEq]

theorem denied_iff_tail_entry :
    ∃ a, Reachable bumpAllocator false (matcher noStack) a ∧ Abstracts a listManyA ∧
      tdifwUdpSend (matcher noStack) a (tdifwFilter false dnsRequest).2 queryBA 21 =
        some filterDeny := by
  obtain ⟨a, hr, hab, hpaused⟩ := reachable_listManyA
  have hdenied : tdifwUdpSend (matcher noStack) a (tdifwFilter false dnsRequest).2 queryBA 21 =
      some filterDeny :=
    ((denied_iff_tail hr rfl rfl).2 _ hab allTails_listManyA queryBA 21 _ fmtDnsMsg_queryBA).mpr
      ⟨hpaused, listManyA_means⟩
  exact ⟨a, hr, hab, hdenied⟩

end Verdict

end AdFilter.App.PatternEntries
