import PCoin.Explorer.Independent
import PCoin.Run.Basic
import Mathlib.Data.Nat.Find

namespace pcoin.explorer

/-- What a node answers while its active chain does not change. -/
structure Stable where
  chain : List Block
  initialblockdownload : Bool
  connections : Option Nat

/-- `getblockhash`, `none` at a height without a block. -/
def hashOn (chain : List Block) (height : Int) : Option String :=
  if height < 0 then none else chain[height.toNat]?.map Block.hash

def Stable.info (n : Stable) : Info where
  blocks := n.chain.length - 1
  bestblockhash := (n.chain.getLast?.map Block.hash).getD ""
  initialblockdownload := n.initialblockdownload

/-- What happens next against the node: its answer, or the transaction. -/
def Stable.event (n : Stable) : Pc → Event
  | .info _ => .info (some n.info)
  | .peers .. => .peers (some n.connections)
  | .probe p _ => .hash (some (hashOn n.chain p.height))
  | .hashes _ lo hi =>
    .hashes (some ((List.range (hi + 1 - lo).toNat).map fun i : Nat => hashOn n.chain (lo + i)))
  | .blocks _ hashes => .blocks (some (hashes.map fun hash => n.chain.find? (·.hash = hash)))
  | .pollFailed | .pollCommit .. | .reorgStatus .. | .reorgLog .. | .unwind .. | .reorgDone ..
  | .apply .. | .finish .. => .commit

def Stable.next (n : Stable) (genesis : String) (s : State) : Option State := do
  step genesis s (n.event (← s.proc))

/-- The chains have the same block at the height. -/
def Common (chain full : List Block) (h : Nat) : Prop :=
  ∃ b ∈ chain[h]?, ∃ b' ∈ full[h]?, b.hash = b'.hash

/-- The highest height up to `node_height` at which the chains have the same block, or -1. -/
def IsFork (chain full : List Block) (node_height fork : Int) : Prop :=
  (∀ h : Nat, (h : Int) ≤ node_height → Common chain full h → (h : Int) ≤ fork) ∧
  (fork = -1 ∨ ∃ h : Nat, fork = h ∧ (h : Int) ≤ node_height ∧ Common chain full h)

section

variable {genesis : String} {node : Node genesis} {chain full : List Block}

/-! ### The common part -/

theorem Valid.height_get (h : Valid genesis chain) {i : Nat} (hi : i < chain.length) :
    chain[i].height = i := by
  have hget := congrArg (·[i]?) h.heights
  simpa [hi] using hget

theorem hashAt_replay (h : Valid genesis chain) (height : Int) :
    (replay chain).hashAt height = hashOn chain height := by
  rw [Tables.hashAt, replay_blocks, hashOn]
  cases hfind : table.find (fun r : BlockRow => (r.height : Int)) height (chain.map Block.row) with
  | none =>
    have hnone := table.find_eq_none hfind
    split
    case isTrue hneg => rfl
    case isFalse hneg =>
      cases hget : chain[height.toNat]? with
      | none => rfl
      | some b =>
        obtain ⟨hlt, rfl⟩ := List.getElem?_eq_some_iff.mp hget
        refine absurd ?_ (hnone _ (List.mem_map_of_mem (List.getElem_mem hlt)))
        have hheight := h.height_get hlt
        change (chain[height.toNat].height : Int) = height
        omega
  | some r =>
    obtain ⟨hr, hkey⟩ := table.find_spec hfind
    obtain ⟨b, hb, rfl⟩ := List.mem_map.mp hr
    obtain ⟨i, hi, rfl⟩ := List.getElem_of_mem hb
    rw [Block.row, h.height_get hi] at hkey
    rw [← hkey, if_neg (by simp), Int.toNat_natCast, List.getElem?_eq_getElem hi]
    rfl

theorem agree_iff (h : Valid genesis chain) (height : Int) :
    ((replay chain).hashAt height ≠ none ∧ (replay chain).hashAt height = hashOn full height) ↔
      ∃ k : Nat, height = k ∧ Common chain full k := by
  rw [hashAt_replay h, hashOn, hashOn]
  split
  case isTrue hneg => exact ⟨fun h => absurd rfl h.1, fun ⟨k, hk, _⟩ => by omega⟩
  case isFalse hneg =>
    constructor
    · rintro ⟨hsome, heq⟩
      obtain ⟨hash, hhash⟩ := Option.ne_none_iff_exists'.mp hsome
      obtain ⟨b, hb, rfl⟩ := Option.map_eq_some_iff.mp hhash
      obtain ⟨b', hb', hsame⟩ := Option.map_eq_some_iff.mp (heq.symm.trans hhash)
      exact ⟨height.toNat, by omega, b, hb, b', hb', hsame.symm⟩
    · rintro ⟨k, rfl, b, hb, b', hb', hsame⟩
      rw [Option.mem_def] at hb hb'
      rw [Int.toNat_natCast, hb, hb', Option.map_some, Option.map_some, hsame]
      exact ⟨by simp, rfl⟩

/-- Chains with the same block at a height are the same up to it. -/
theorem Node.Indexed.take_eq (h : node.Indexed chain) (hfull : node.Indexed full) {k : Nat}
    (hk : Common chain full k) : chain.take (k + 1) = full.take (k + 1) := by
  obtain ⟨b, hb, b', hb', hhash⟩ := hk
  obtain ⟨hlt, rfl⟩ := List.getElem?_eq_some_iff.mp hb
  obtain ⟨hlt', rfl⟩ := List.getElem?_eq_some_iff.mp hb'
  have hlast : ∀ {chain : List Block} (hlt : k < chain.length),
      (chain.take (k + 1)).getLast? = some chain[k] := fun hlt => by
    rw [List.take_succ_eq_append_getElem hlt, List.getLast?_concat]
  have hpart : ∀ {chain : List Block}, node.Indexed chain → Valid genesis (chain.take (k + 1)) :=
    fun {chain} h =>
      (show Valid genesis (chain.take (k + 1) ++ chain.drop (k + 1)) by simpa using h.valid).of_append
  refine eq_of_last_hash_eq (hpart h) (hpart hfull)
    (fun b hb => h.has b (List.mem_of_mem_take hb)) (fun b hb => hfull.has b (List.mem_of_mem_take hb))
    ?_ ?_
  · rw [List.length_take, List.length_take]
    omega
  · rw [hlast hlt, hlast hlt', Option.map_some, Option.map_some, hhash]

/-- The part that two chains have in common, and what follows it on each. -/
theorem exists_common (h : node.Indexed chain) (hfull : node.Indexed full) :
    ∃ pre rest rest', chain = pre ++ rest ∧ full = pre ++ rest' ∧
      ∀ k, Common chain full k ↔ k < pre.length := by
  let same := fun k => k ≤ chain.length ∧ k ≤ full.length ∧ chain.take k = full.take k
  have hspec : same (Nat.findGreatest same chain.length) :=
    Nat.findGreatest_spec (P := same) (Nat.zero_le _) ⟨Nat.zero_le _, Nat.zero_le _, rfl⟩
  obtain ⟨hle, hle', htake⟩ := hspec
  refine ⟨chain.take (Nat.findGreatest same chain.length), chain.drop (Nat.findGreatest same chain.length),
    full.drop (Nat.findGreatest same chain.length), (List.take_append_drop _ _).symm, ?_, fun k => ?_⟩
  · rw [htake]
    exact (List.take_append_drop _ _).symm
  · rw [List.length_take, Nat.min_eq_left hle]
    constructor
    · intro hk
      have htake := h.take_eq hfull hk
      obtain ⟨b, hb, b', hb', -⟩ := hk
      obtain ⟨hlt, -⟩ := List.getElem?_eq_some_iff.mp hb
      obtain ⟨hlt', -⟩ := List.getElem?_eq_some_iff.mp hb'
      exact Nat.le_findGreatest hlt ⟨hlt, hlt', htake⟩
    · intro hk
      refine ⟨_, List.getElem?_eq_getElem (by omega), _, List.getElem?_eq_getElem (by omega), ?_⟩
      have hget := congrArg (·[k]?) htake
      rw [List.getElem?_take_of_lt hk, List.getElem?_take_of_lt hk,
        List.getElem?_eq_getElem (by omega), List.getElem?_eq_getElem (by omega)] at hget
      rw [Option.some.inj hget]

end

/-! ### The search -/

section

variable {hi top : Int}

/-- Where the search of `find_fork` stands between the heights: those up to `top` are common, and
nothing above `hi` is looked at. -/
def Probe.Ready (top hi : Int) : Probe → Prop
  | .top h => h = hi
  | .down h step bad => h = hi ∧ 1 ≤ step ∧ hi - step < bad ∧ bad ≤ hi ∧ top < bad
  | .mid lo bad => 0 ≤ lo ∧ lo ≤ top ∧ top < bad ∧ bad ≤ hi ∧ 1 < bad - lo

def Probe.measure : Probe → Nat
  | .top hi => 2 * hi.toNat + 2
  | .down hi step _ => (hi - step).toNat + hi.toNat + 1
  | .mid lo hi => (hi - lo).toNat

theorem search_ready {lo bad : Int} (hlo : 0 ≤ lo) (hgood : lo ≤ top) (hbad : top < bad) (hhi : bad ≤ hi) :
    search lo bad = .inr (min top hi) ∨
      ∃ p, search lo bad = .inl p ∧ p.Ready top hi ∧ p.measure = (bad - lo).toNat := by
  unfold search
  split
  case isTrue hgap => exact .inr ⟨_, rfl, ⟨hlo, hgood, hbad, hhi, hgap⟩, rfl⟩
  case isFalse hgap => exact .inl (congrArg Sum.inr (by omega))

/-- One probe of the search. -/
theorem next_ready {p : Probe} (htop : 0 ≤ top) (hp : p.Ready top hi) :
    p.next (p.height ≤ top) = .inr (min top hi) ∨
      ∃ q, p.next (p.height ≤ top) = .inl q ∧ q.Ready top hi ∧ q.measure < p.measure := by
  cases p with
  | top h =>
    obtain rfl := hp
    by_cases hgood : h ≤ top
    · refine .inl ?_
      simp only [Probe.next, Probe.height, hgood, decide_true, if_true]
      rw [min_eq_right hgood]
    · refine .inr ⟨.down h 1 h, ?_, ⟨rfl, le_refl 1, by omega, le_refl h, by omega⟩, ?_⟩
      · simp [Probe.next, Probe.height, hgood]
      · rw [Probe.measure, Probe.measure]
        omega
  | down h step bad =>
    obtain ⟨rfl, hstep, hlow, hbad, htopbad⟩ := hp
    by_cases hgood : max 0 (h - step) ≤ top
    · simp only [Probe.next, Probe.height, hgood, decide_true, if_true]
      obtain hfound | ⟨q, hq, hready, hmeasure⟩ :=
        search_ready (le_max_left 0 (h - step)) hgood htopbad hbad
      · exact .inl hfound
      · refine .inr ⟨q, hq, hready, ?_⟩
        rw [hmeasure, Probe.measure]
        omega
    · have hpos : max 0 (h - step) ≠ 0 := by omega
      refine .inr ⟨.down h (step * 2) (max 0 (h - step)), ?_,
        ⟨rfl, by omega, by omega, by omega, by omega⟩, ?_⟩
      · simp [Probe.next, Probe.height, hgood, hpos]
      · rw [Probe.measure, Probe.measure]
        omega
  | mid lo bad =>
    obtain ⟨hlo, hgood, hbad, hle, hgap⟩ := hp
    by_cases hmid : (lo + bad) / 2 ≤ top
    · simp only [Probe.next, Probe.height, hmid, decide_true, if_true]
      obtain hfound | ⟨q, hq, hready, hmeasure⟩ :=
        search_ready (show 0 ≤ (lo + bad) / 2 by omega) hmid hbad hle
      · exact .inl hfound
      · refine .inr ⟨q, hq, hready, ?_⟩
        rw [hmeasure, Probe.measure]
        omega
    · simp only [Probe.next, Probe.height, hmid, decide_false, if_false, Bool.false_eq_true]
      obtain hfound | ⟨q, hq, hready, hmeasure⟩ :=
        search_ready hlo hgood (show top < (lo + bad) / 2 by omega) (show (lo + bad) / 2 ≤ hi by omega)
      · exact .inl hfound
      · refine .inr ⟨q, hq, hready, ?_⟩
        rw [hmeasure, Probe.measure]
        omega

theorem Probe.Ready.height_nonneg {p : Probe} (hp : p.Ready top hi) (hhi : 0 ≤ hi) : 0 ≤ p.height := by
  cases p with
  | top h => exact hp ▸ hhi
  | down h step bad => exact le_max_left 0 _
  | mid lo bad =>
    obtain ⟨hlo, hgood, hbad, -, -⟩ := hp
    rw [Probe.height]
    omega

end

section

variable {genesis : String} {node : Node genesis} {chain : List Block} {n : Stable}

/-- The blocks that are unwound, as the tips of which the transactions start. -/
def unwinding (s : State) : Option (Int × Option String) :=
  match s.proc with
  | some (.unwind ..) => some s.tables.tip
  | _ => none

theorem genesis_common (h : node.Indexed chain) (hfull : node.Indexed n.chain) (hchain : chain ≠ [])
    (hne : n.chain ≠ []) : Common chain n.chain 0 := by
  obtain ⟨b, rest, rfl⟩ := List.exists_cons_of_ne_nil hchain
  cases hfullChain : n.chain with
  | nil => exact absurd hfullChain hne
  | cons b' full =>
    have hroot := hfull.valid.root
    rw [hfullChain] at hroot
    exact ⟨b, rfl, b', rfl, (h.valid.root b rfl).trans (hroot b' rfl).symm⟩

theorem isFork_common {full pre : List Block} (hcommon : ∀ k, Common chain full k ↔ k < pre.length)
    (node_height : Int) : IsFork chain full node_height (max (-1) (min ((pre.length : Int) - 1) node_height)) := by
  refine ⟨fun h hle hh => ?_, ?_⟩
  · have := (hcommon h).mp hh
    omega
  · by_cases hneg : min ((pre.length : Int) - 1) node_height < 0
    · exact .inl (by omega)
    · exact .inr ⟨(min ((pre.length : Int) - 1) node_height).toNat, by omega, by omega,
        (hcommon _).mpr (by omega)⟩

/-- The measure of the search that is under way. -/
def State.measure (s : State) : Nat :=
  match s.proc with
  | some (.probe p _) => p.measure
  | _ => 0

theorem Stable.next_probe (n : Stable) (s : State) (p : Probe) (after : Return) :
    n.next genesis (s.goto (.probe p after)) =
      some ((p.next (s.tables.hashAt p.height ≠ none ∧ s.tables.hashAt p.height = hashOn n.chain p.height)).elim
        (fun p => s.goto (.probe p after)) fun fork => s.goto (.reorgStatus fork after)) := by
  change answer _ (.probe p after) (.hash (some (hashOn n.chain p.height))) = _
  rw [answer, show (s.goto (.probe p after)).tables = s.tables from rfl]
  generalize p.next _ = found
  cases found <;> rfl

/-- `find_fork` against the node. -/
theorem leads_fork (h : node.Indexed chain) (hfull : node.Indexed n.chain) (hne : n.chain ≠ [])
    {pre rest : List Block} (hchain : chain = pre ++ rest)
    (hcommon : ∀ k, Common chain n.chain k ↔ k < pre.length) {s : State} (htables : s.tables = replay chain)
    (node_height : Int) (after : Return) :
    ∃ path, run.Leads (n.next genesis) (s.goto (startReorg s.tables node_height after)) path
        (s.goto (.reorgStatus (max (-1) (min ((pre.length : Int) - 1) node_height)) after)) ∧
      path.filterMap unwinding = [] := by
  have hlen : chain.length = pre.length + rest.length := by rw [hchain, List.length_append]
  have htip : s.tables.tip.1 = (chain.length : Int) - 1 := by rw [htables, tip_replay h.valid]
  rw [startReorg, htip]
  split
  case isTrue hneg =>
    rw [show max (-1) (min ((pre.length : Int) - 1) node_height) = -1 by omega]
    exact ⟨[], .refl _, rfl⟩
  case isFalse hhi =>
    have hgenesis := (hcommon 0).mp
      (genesis_common h hfull (List.ne_nil_of_length_pos (by omega)) hne)
    -- a height of the search is common exactly when it is not above the common part
    have hagree : ∀ p : Probe, p.Ready ((pre.length : Int) - 1) (min ((chain.length : Int) - 1) node_height) →
        decide (s.tables.hashAt p.height ≠ none ∧ s.tables.hashAt p.height = hashOn n.chain p.height) =
          decide (p.height ≤ (pre.length : Int) - 1) := by
      intro p hp
      have hpos := hp.height_nonneg (by omega)
      rw [decide_eq_decide, htables, agree_iff h.valid]
      constructor
      · rintro ⟨k, hk, hsame⟩
        have := (hcommon k).mp hsame
        omega
      · exact fun hle => ⟨p.height.toNat, by omega, (hcommon _).mpr (by omega)⟩
    have hsearch : ∃ path t, run.Leads (n.next genesis)
        (s.goto (.probe (.top (min ((chain.length : Int) - 1) node_height)) after)) path t ∧
        t = s.goto (.reorgStatus (min ((pre.length : Int) - 1)
          (min ((chain.length : Int) - 1) node_height)) after) ∧
        ∀ x ∈ path, ∃ p : Probe, x = s.goto (.probe p after) ∧
          p.Ready ((pre.length : Int) - 1) (min ((chain.length : Int) - 1) node_height) :=
      run.leads_of_measure
      State.measure (fun x hx => by
        obtain ⟨p, rfl, hp⟩ := hx
        have hnext : n.next genesis (s.goto (.probe p after)) =
            some ((p.next (p.height ≤ (pre.length : Int) - 1)).elim (fun p => s.goto (.probe p after))
              fun fork => s.goto (.reorgStatus fork after)) := by
          rw [Stable.next_probe]
          exact congrArg (fun b => some ((p.next b).elim _ _)) (hagree p hp)
        obtain hfound | ⟨q, hq, hready, hmeasure⟩ := next_ready (by omega) hp
        · exact ⟨_, by rw [hnext, hfound, Sum.elim_inr], .inl rfl⟩
        · exact ⟨s.goto (.probe q after), by rw [hnext, hq, Sum.elim_inl], .inr ⟨⟨q, rfl, hready⟩, hmeasure⟩⟩)
      ⟨_, rfl, rfl⟩
    obtain ⟨path, t, hpath, rfl, hinv⟩ := hsearch
    refine ⟨path, ?_, List.filterMap_eq_nil_iff.mpr fun x hx => ?_⟩
    · rwa [show max (-1) (min ((pre.length : Int) - 1) node_height) =
        min ((pre.length : Int) - 1) (min ((chain.length : Int) - 1) node_height) by omega]
    · obtain ⟨p, rfl, -⟩ := hinv x hx
      rfl

end

end pcoin.explorer
