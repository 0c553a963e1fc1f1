import PCoin.Wrapdesk.Desk
import PCoin.Run.Basic

/-! Calls of `POST /request` that overlap. -/

namespace pcoin.wrapdesk.desk

/-- Where a call waits: for its body, or for the deposits of a request, with what it has loaded. -/
inductive Phase
  | body
  | reading (st : File) (mine : List Req)
deriving DecidableEq

structure Call where
  id : Nat
  browser : Nat
  ask : Ask
  phase : Phase := .body
deriving DecidableEq

/-- An address that was shown. -/
structure Shown where
  browser : Nat
  account : Option String
  address : String
deriving DecidableEq

/-- The file, the calls, the claim cookies of the browsers, what was shown, and which browser made
the request of a key. -/
structure State where
  file : File := {}
  calls : List Call := []
  nextId : Nat := 0
  claims : List (Nat × String) := []
  shown : List Shown := []
  made : List (Nat × String) := []
deriving DecidableEq

inductive Event
  | arrives (browser : Nat) (ask : Ask)
  /-- The body is read, and the captcha passed. `holds` says that the browser sends the claim of the
  key that the call comes to. -/
  | loads (id : Nat) (w : World) (holds : Bool)
  /-- The explorer answers with a number of deposits. -/
  | reads (id : Nat) (got : Option Nat) (w : World) (holds : Bool)
  /-- The call ends without an answer. -/
  | fails (id : Nat)

namespace State

variable (s : State)

def call (id : Nat) : Option Call := table.find Call.id id s.calls

def drop (id : Nat) : State := { s with calls := s.calls.filter (·.id ≠ id) }

/-- A record is shown, and its claim is given. -/
def shows (c : Call) (r : Req) : State :=
  { s.drop c.id with
    claims := s.claims ++ [(c.browser, r.key)]
    shown := s.shown ++ [⟨c.browser, c.ask.account, r.address⟩] }

def reading (id : Nat) (st : File) (mine : List Req) : State :=
  { s with calls := table.update Call.id id (fun c => { c with phase := .reading st mine }) s.calls }

end State

variable (cfg : Config)

/-- A call comes to its key, with what it has loaded. -/
def finish (s : State) (c : Call) (st : File) (key : String) (w : World) (holds : Bool) :
    Option State := do
  -- claims are signed
  guard (holds = true → (c.browser, key) ∈ s.claims)
  match answer cfg w holds c.ask st key with
  | .refused => return s.drop c.id
  | .shows r => return s.shows c r
  | .saves st' r =>
    let made := if (st.request key).isNone then s.made ++ [(c.browser, key)] else s.made
    return { s with file := st', made := made }.shows c r

def step (s : State) : Event → Option State
  | .arrives browser ask =>
    some { s with
      calls := s.calls ++ [{ id := s.nextId, browser := browser, ask := ask }]
      nextId := s.nextId + 1 }
  | .loads id w holds => do
    let c ← s.call id
    guard (c.phase = .body)
    if !gates cfg w c.ask s.file then return s.drop c.id
    else match c.ask.account with
      | none => finish cfg s c s.file (lowerCase c.ask.bsc) w holds
      | some email =>
        let mine := mineHere c.ask email s.file
        if mine = [] then finish cfg s c s.file (freshKey c.ask s.file) w holds
        else return s.reading c.id s.file mine
  | .reads id got w holds => do
    let c ← s.call id
    match c.phase with
    | .reading st mine =>
      match search c.ask st mine got with
      | .inl key => finish cfg s c st key w holds
      | .inr rest => return s.reading c.id st rest
    | .body => none
  | .fails id => do
    let c ← s.call id
    return s.drop c.id

/-- What a call may change of a record: the amount. -/
def Req.kept (r : Req) : Req := { r with amount := 0 }

/-- The records of a file are in another one, and those that are new have new indices. -/
structure Extends (st st' : File) : Prop where
  nextIndex : st.nextIndex ≤ st'.nextIndex
  requests : ∃ new, st'.requests.map Req.kept = st.requests.map Req.kept ++ new ∧
    ∀ r ∈ new, st.nextIndex ≤ r.index ∧ r.index < st'.nextIndex

/-- An address is shown to the account of its record, or to one who holds its claim. -/
def State.MayShow (s : State) (x : Shown) : Prop :=
  ∃ r ∈ s.file.requests, r.address = x.address ∧
    ((x.account.isSome = true ∧ r.account = x.account) ∨ (x.browser, r.key) ∈ s.claims)

instance (s : State) (x : Shown) : Decidable (s.MayShow x) :=
  inferInstanceAs (Decidable (∃ r ∈ s.file.requests, r.address = x.address ∧
    ((x.account.isSome = true ∧ r.account = x.account) ∨ (x.browser, r.key) ∈ s.claims)))

/-- What is promised of the addresses. -/
structure Exact (s : State) : Prop where
  addresses : (s.file.requests.map Req.address).Nodup
  indices : (s.file.requests.map Req.index).Nodup
  keys : (s.file.requests.map Req.key).Nodup
  shown : ∀ x ∈ s.shown, s.MayShow x
  /-- A claim is held by the browser that made the request, or one that was signed in to its
  account. -/
  claims : ∀ q ∈ s.claims, ∃ r ∈ s.file.requests, r.key = q.2 ∧ (q ∈ s.made ∨
    ∃ x ∈ s.shown, x.browser = q.1 ∧ x.account.isSome = true ∧ r.account = x.account)

/-- A call that is to save with what it has loaded finds that no record was created since. -/
def Call.current (file : File) (got : Option Nat) (w : World) (holds : Bool) (c : Call) : Bool :=
  match c.phase with
  | .reading st mine => match search c.ask st mine got with
    | .inl key => match answer cfg w holds c.ask st key with
      | .saves _ _ => st.nextIndex = file.nextIndex
      | _ => true
    | .inr _ => true
  | .body => true

/-- No record is created while a call that is to save waits. -/
def Heeded (s : State) : Event → Prop
  | .reads id got w holds => ∀ c ∈ s.call id, c.current cfg s.file got w holds = true
  | _ => True

instance (s : State) : (e : Event) → Decidable (Heeded cfg s e)
  | .reads id got w holds =>
    inferInstanceAs (Decidable (∀ c ∈ s.call id, c.current cfg s.file got w holds = true))
  | .arrives .. | .loads .. | .fails .. => .isTrue trivial

/-- What holds of a file. -/
structure FileOk (st : File) : Prop where
  keys : (st.requests.map Req.key).Nodup
  indices : (st.requests.map Req.index).Nodup
  slots : ∀ r ∈ st.requests, r.index < st.nextIndex ∧ (r.index, r.address) ∈ cfg.pool.slots

/-- What holds of the desk. -/
structure Inv (s : State) : Prop where
  file : FileOk cfg s.file
  calls : ∀ c ∈ s.calls, ∀ st mine, c.phase = .reading st mine → Extends st s.file
  shown : ∀ x ∈ s.shown, s.MayShow x
  claims : ∀ q ∈ s.claims, ∃ r ∈ s.file.requests, r.key = q.2 ∧ (q ∈ s.made ∨
    ∃ x ∈ s.shown, x.browser = q.1 ∧ x.account.isSome = true ∧ r.account = x.account)

variable {cfg} {s t : State} {st st' st'' : File} {w : World} {holds : Bool} {a : Ask} {key : String}

theorem mem_of_kept {rows rows' : List Req} (h : ∃ new, rows'.map Req.kept = rows.map Req.kept ++ new)
    {r : Req} (hr : r ∈ rows) : ∃ r' ∈ rows', r'.kept = r.kept := by
  obtain ⟨new, hnew⟩ := h
  have hmem : r.kept ∈ rows'.map Req.kept := hnew ▸ List.mem_append_left _ (List.mem_map_of_mem hr)
  exact List.mem_map.mp hmem

theorem kept_eq {r r' : Req} (h : r'.kept = r.kept) :
    r'.key = r.key ∧ r'.address = r.address ∧ r'.account = r.account := by
  simp only [Req.kept, Req.mk.injEq] at h
  exact ⟨h.1, h.2.2.2.1, h.2.2.2.2.2.2.1⟩

theorem Extends.refl (st : File) : Extends st st :=
  ⟨Nat.le_refl _, [], (List.append_nil _).symm, fun r hr => (by cases hr)⟩

theorem Extends.trans (h : Extends st st') (h' : Extends st' st'') : Extends st st'' := by
  obtain ⟨new, hnew, hrange⟩ := h.requests
  obtain ⟨new', hnew', hrange'⟩ := h'.requests
  refine ⟨Nat.le_trans h.nextIndex h'.nextIndex, new ++ new', ?_, fun r hr => ?_⟩
  · rw [hnew', hnew, List.append_assoc]
  · obtain hr | hr := List.mem_append.mp hr
    · exact ⟨(hrange r hr).1, Nat.lt_of_lt_of_le (hrange r hr).2 h'.nextIndex⟩
    · exact ⟨Nat.le_trans h.nextIndex (hrange' r hr).1, (hrange' r hr).2⟩

/-- A file in which no record was created is the same but for the amounts. -/
theorem Extends.same (h : Extends st st') (hindex : st.nextIndex = st'.nextIndex) :
    st'.requests.map Req.kept = st.requests.map Req.kept := by
  obtain ⟨new, hnew, hrange⟩ := h.requests
  cases new with
  | nil => rw [hnew, List.append_nil]
  | cons r new =>
    have := hrange r List.mem_cons_self
    omega

theorem map_kept {β : Type} {f : Req → β} (hf : ∀ r : Req, f r.kept = f r) (rows : List Req) :
    (rows.map Req.kept).map f = rows.map f := by
  rw [List.map_map]
  exact List.map_congr_left fun r _ => hf r

theorem FileOk.of_kept (h : FileOk cfg st) (hindex : st'.nextIndex = st.nextIndex)
    (hkept : st'.requests.map Req.kept = st.requests.map Req.kept) : FileOk cfg st' where
  keys := by
    rw [← map_kept (f := Req.key) fun _ => rfl, hkept, map_kept fun _ => rfl]
    exact h.keys
  indices := by
    rw [← map_kept (f := Req.index) fun _ => rfl, hkept, map_kept fun _ => rfl]
    exact h.indices
  slots r hr := by
    obtain ⟨r', hr', heq⟩ : ∃ r' ∈ st.requests, r'.kept = r.kept :=
      mem_of_kept ⟨[], by rw [hkept, List.append_nil]⟩ hr
    have hslot := h.slots r' hr'
    have hidx : r'.kept.index = r.kept.index := by rw [heq]
    have haddr : r'.kept.address = r.kept.address := by rw [heq]
    rw [hindex, ← show r'.index = r.index from hidx, ← show r'.address = r.address from haddr]
    exact hslot

/-- A new record takes the next address. -/
theorem FileOk.create (h : FileOk cfg st) {r : Req} (hkey : st.request r.key = none)
    (hindex : r.index = st.nextIndex) (hslot : (r.index, r.address) ∈ cfg.pool.slots) :
    FileOk cfg { requests := st.requests ++ [r], nextIndex := st.nextIndex + 1 } where
  keys := table.nodup_append h.keys fun hmem => by
    obtain ⟨x, hx, heq⟩ := List.mem_map.mp hmem
    exact table.find_eq_none hkey x hx heq
  indices := table.nodup_append h.indices fun hmem => by
    obtain ⟨x, hx, heq⟩ := List.mem_map.mp hmem
    have := (h.slots x hx).1
    omega
  slots x hx := by
    obtain hx | hx := List.mem_append.mp hx
    · exact ⟨Nat.lt_succ_of_lt (h.slots x hx).1, (h.slots x hx).2⟩
    · rw [List.mem_singleton.mp hx, hindex]
      exact ⟨Nat.lt_succ_self _, hindex ▸ hslot⟩

/-- One address, one record. -/
theorem FileOk.addresses (h : FileOk cfg st) : (st.requests.map Req.address).Nodup := by
  refine List.Nodup.map_on (fun x hx y hy heq => ?_) (List.Nodup.of_map _ h.indices)
  refine List.inj_on_of_nodup_map h.indices hx hy ?_
  have hslot := List.inj_on_of_nodup_map cfg.pool.nodup (h.slots x hx).2 (h.slots y hy).2 heq
  exact congrArg Prod.fst hslot

/-- The caller may see a record. -/
def Owns (holds : Bool) (a : Ask) (r : Req) : Prop :=
  holds = true ∨ (a.account.isSome = true ∧ r.account = a.account)

/-- What a call makes of a file. -/
inductive Saved (cfg : Config) (holds : Bool) (a : Ask) (st : File) (key : String) : File → Req → Prop
  | create (r : Req) (hkey : r.key = key) (hnone : st.request r.key = none)
      (haccount : r.account = a.account) (hindex : r.index = st.nextIndex)
      (hslot : (r.index, r.address) ∈ cfg.pool.slots) :
      Saved cfg holds a st key { requests := st.requests ++ [r], nextIndex := st.nextIndex + 1 } r
  | restate (r r₀ : Req) (rows : List Req) (hkey : st.request key = some r₀) (howns : Owns holds a r₀)
      (hkept : r.kept = r₀.kept) (hrows : rows.map Req.kept = st.requests.map Req.kept) :
      Saved cfg holds a st key { st with requests := rows } r

theorem answer_saves {r : Req} (h : answer cfg w holds a st key = .saves st' r) :
    Saved cfg holds a st key st' r := by
  unfold answer at h
  simp only at h
  split at h
  · cases h
  split at h
  · rename_i hnone
    split at h
    · cases h
    split at h
    · cases h
    split at h
    · cases h
    · rename_i slot hslot
      have hindex : slot.1 = st.nextIndex := by simpa using List.find?_some hslot
      have hmem := List.mem_of_find?_eq_some hslot
      cases h
      rw [hindex]
      exact .create _ rfl hnone rfl rfl (hindex ▸ hmem)
  · rename_i r₀ hr₀
    split at h
    · cases h
    rename_i howns
    split at h
    · cases h
      refine .restate _ r₀ _ hr₀ ?_ rfl (table.map_update fun _ _ _ => rfl)
      simpa [Owns, or_iff_not_imp_left, Option.isSome_iff_ne_none] using howns
    · cases h

theorem answer_shows {r : Req} (h : answer cfg w holds a st key = .shows r) :
    st.request key = some r ∧ Owns holds a r := by
  unfold answer at h
  simp only at h
  split at h
  · cases h
  split at h
  · split at h
    · cases h
    split at h
    · cases h
    split at h
    · cases h
    · cases h
  · rename_i r₀ hr₀
    split at h
    · cases h
    rename_i howns
    split at h
    · cases h
    · cases h
      refine ⟨hr₀, ?_⟩
      simpa [Owns, or_iff_not_imp_left, Option.isSome_iff_ne_none] using howns

namespace Inv

theorem drop (h : Inv cfg s) (id : Nat) : Inv cfg (s.drop id) :=
  { h with calls := fun c hc => h.calls c (List.mem_of_mem_filter hc) }

theorem reading (h : Inv cfg s) {id : Nat} {mine : List Req} (hst : Extends st s.file) :
    Inv cfg (s.reading id st mine) :=
  { h with
    calls := fun c hc st' mine' hphase => by
      obtain ⟨c₀, hc₀, rfl⟩ := List.mem_map.mp hc
      split at hphase
      · cases hphase
        exact hst
      · exact h.calls c₀ hc₀ st' mine' hphase }

/-- The file is written. -/
theorem written (h : Inv cfg s) (hst : Extends s.file st) (hok : FileOk cfg st) :
    Inv cfg { s with file := st } where
  file := hok
  calls c hc st' mine hphase := (h.calls c hc st' mine hphase).trans hst
  shown x hx := by
    obtain ⟨r, hr, haddr, hwhy⟩ := h.shown x hx
    obtain ⟨new, hnew, -⟩ := hst.requests
    obtain ⟨r', hr', hkept⟩ := mem_of_kept ⟨new, hnew⟩ hr
    obtain ⟨hkey, haddr', hacct⟩ := kept_eq hkept
    refine ⟨r', hr', haddr'.trans haddr, ?_⟩
    rw [hkey, hacct]
    exact hwhy
  claims q hq := by
    obtain ⟨r, hr, hkey, hwhy⟩ := h.claims q hq
    obtain ⟨new, hnew, -⟩ := hst.requests
    obtain ⟨r', hr', hkept⟩ := mem_of_kept ⟨new, hnew⟩ hr
    obtain ⟨hkey', -, hacct⟩ := kept_eq hkept
    refine ⟨r', hr', hkey'.trans hkey, ?_⟩
    rw [hacct]
    exact hwhy

theorem made (h : Inv cfg s) (new : List (Nat × String)) : Inv cfg { s with made := s.made ++ new } :=
  { h with
    claims := fun q hq => by
      obtain ⟨r, hr, hkey, hwhy⟩ := h.claims q hq
      exact ⟨r, hr, hkey, hwhy.imp_left fun hmade => List.mem_append_left _ hmade⟩ }

/-- A record is shown to one who made it, who holds its claim, or who is signed in to its
account. -/
theorem shows (h : Inv cfg s) {c : Call} {r r' : Req} (hr : r' ∈ s.file.requests)
    (hkept : r'.kept = r.kept)
    (hwhy : (c.browser, r.key) ∈ s.made ∨ (c.browser, r.key) ∈ s.claims ∨
      (c.ask.account.isSome = true ∧ r.account = c.ask.account)) : Inv cfg (s.shows c r) := by
  obtain ⟨hkey, haddr, hacct⟩ := kept_eq hkept
  refine { h.drop c.id with shown := fun x hx => ?_, claims := fun q hq => ?_ }
  · obtain hx | hx := List.mem_append.mp hx
    · obtain ⟨r₀, hr₀, haddr₀, hwhy₀⟩ := h.shown x hx
      exact ⟨r₀, hr₀, haddr₀, hwhy₀.imp_right fun hclaim => List.mem_append_left _ hclaim⟩
    · rw [List.mem_singleton.mp hx]
      exact ⟨r', hr, haddr, .inr (hkey ▸ List.mem_append_right _ (List.mem_singleton.mpr rfl))⟩
  · obtain hq | hq := List.mem_append.mp hq
    · obtain ⟨r₀, hr₀, hkey₀, hwhy₀⟩ := h.claims q hq
      refine ⟨r₀, hr₀, hkey₀, hwhy₀.imp_right ?_⟩
      rintro ⟨x, hx, hrest⟩
      exact ⟨x, List.mem_append_left _ hx, hrest⟩
    · obtain rfl := List.mem_singleton.mp hq
      obtain hmade | hclaim | ⟨hsome, haccount⟩ := hwhy
      · exact ⟨r', hr, hkey, .inl hmade⟩
      · obtain ⟨r₀, hr₀, hkey₀, hwhy₀⟩ := h.claims _ hclaim
        refine ⟨r₀, hr₀, hkey₀, hwhy₀.imp_right ?_⟩
        rintro ⟨x, hx, hrest⟩
        exact ⟨x, List.mem_append_left _ hx, hrest⟩
      · refine ⟨r', hr, hkey, .inr ⟨_, List.mem_append_right _ (List.mem_singleton.mpr rfl), rfl, hsome, ?_⟩⟩
        rw [hacct]
        exact haccount

/-- A call comes to its end with what it has loaded. -/
theorem finish (h : Inv cfg s) {c : Call} (hst : Extends st s.file)
    (hsame : ∀ st' r, answer cfg w holds c.ask st key = .saves st' r → st.nextIndex = s.file.nextIndex)
    (hstep : desk.finish cfg s c st key w holds = some t) : Inv cfg t ∧ Extends s.file t.file := by
  obtain ⟨_, hholds, hstep⟩ := Option.bind_eq_some_iff.mp hstep
  replace hholds := (Option.guard_eq_some' _).mp hholds
  -- why a record that was found may be shown
  have howner : ∀ {r : Req}, r.key = key → Owns holds c.ask r → (c.browser, r.key) ∈ s.claims ∨
      (c.ask.account.isSome = true ∧ r.account = c.ask.account) := by
    rintro r rfl (htrue | hacct)
    · exact .inl (hholds htrue)
    · exact .inr hacct
  split at hstep
  · cases hstep
    exact ⟨h.drop c.id, .refl _⟩
  · rename_i r hanswer
    cases hstep
    obtain ⟨hr, howns⟩ := answer_shows hanswer
    obtain ⟨hmem, hkey⟩ := table.find_spec hr
    obtain ⟨new, hnew, -⟩ := hst.requests
    obtain ⟨r', hr', hkept⟩ := mem_of_kept ⟨new, hnew⟩ hmem
    exact ⟨h.shows hr' hkept (.inr (howner hkey howns)), .refl _⟩
  · rename_i st' r hanswer
    have hindex := hsame st' r hanswer
    have hkept := hst.same hindex
    have hok : FileOk cfg st := h.file.of_kept hindex hkept.symm
    cases hstep
    cases answer_saves hanswer with
    | create r hkey hnone haccount hidx hslot =>
      have hext : Extends s.file { requests := st.requests ++ [r], nextIndex := st.nextIndex + 1 } := by
        refine ⟨?_, [r.kept], ?_, fun x hx => ?_⟩
        · rw [← hindex]
          exact Nat.le_succ _
        · rw [List.map_append, hkept]
          rfl
        · have hx : x.index = r.index := by rw [List.mem_singleton.mp hx]; rfl
          rw [hx, hidx, ← hindex]
          exact ⟨Nat.le_refl _, Nat.lt_succ_self _⟩
      subst hkey
      have hinv := (h.written hext (hok.create hnone hidx hslot)).made [(c.browser, r.key)]
      rw [hnone]
      refine ⟨hinv.shows (List.mem_append_right _ (List.mem_singleton.mpr rfl)) rfl (.inl ?_), hext⟩
      exact List.mem_append_right _ (List.mem_singleton.mpr rfl)
    | restate r r₀ rows hr₀ howns hrkept hrows =>
      have hext : Extends s.file { st with requests := rows } := by
        refine ⟨Nat.le_of_eq hindex.symm, [], ?_, fun x hx => (by cases hx)⟩
        rw [List.append_nil, hkept]
        exact hrows
      have hinv := h.written hext (hok.of_kept rfl hrows)
      obtain ⟨hmem, hkey₀⟩ := table.find_spec hr₀
      obtain ⟨hkey, -, hacct⟩ := kept_eq hrkept
      obtain ⟨r', hr', hkept'⟩ := mem_of_kept ⟨[], by rw [hrows, List.append_nil]⟩ hmem
      rw [hr₀]
      refine ⟨hinv.shows hr' (hkept'.trans hrkept.symm) (.inr ?_), hext⟩
      rw [hkey, hacct]
      exact howner hkey₀ howns

/-- A step that meets the condition keeps what holds, and adds to the file. -/
theorem step {e : Event} (h : Inv cfg s) (hok : Heeded cfg s e) (hstep : desk.step cfg s e = some t) :
    Inv cfg t ∧ Extends s.file t.file := by
  cases e with
  | arrives browser ask =>
    cases hstep
    refine ⟨{ h with calls := fun c hc st mine hphase => ?_ }, .refl _⟩
    obtain hc | hc := List.mem_append.mp hc
    · exact h.calls c hc st mine hphase
    · rw [List.mem_singleton.mp hc] at hphase
      cases hphase
  | loads id w holds =>
    obtain ⟨c, -, hstep⟩ := Option.bind_eq_some_iff.mp hstep
    obtain ⟨_, -, hstep⟩ := Option.bind_eq_some_iff.mp hstep
    split at hstep
    · cases hstep
      exact ⟨h.drop c.id, .refl _⟩
    split at hstep
    · exact h.finish (.refl _) (fun _ _ _ => rfl) hstep
    · simp only at hstep
      split at hstep
      · exact h.finish (.refl _) (fun _ _ _ => rfl) hstep
      · cases hstep
        exact ⟨h.reading (.refl _), .refl _⟩
  | reads id got w holds =>
    obtain ⟨c, hc, hstep⟩ := Option.bind_eq_some_iff.mp hstep
    have hmem := (table.find_spec hc).1
    have hsame := hok c hc
    unfold Call.current at hsame
    split at hstep
    · rename_i st mine hphase
      rw [hphase] at hsame
      have hst := h.calls c hmem st mine hphase
      split at hstep
      · rename_i key hsearch
        simp only [hsearch] at hsame
        refine h.finish hst (fun st' r hanswer => ?_) hstep
        simpa only [hanswer, decide_eq_true_eq] using hsame
      · cases hstep
        exact ⟨h.reading hst, .refl _⟩
    · cases hstep
  | fails id =>
    obtain ⟨c, -, hstep⟩ := Option.bind_eq_some_iff.mp hstep
    cases hstep
    exact ⟨h.drop c.id, .refl _⟩

theorem init : Inv cfg {} where
  file := ⟨List.nodup_nil, List.nodup_nil, fun r hr => (by cases hr)⟩
  calls c hc := by cases hc
  shown x hx := by cases hx
  claims q hq := by cases hq

end Inv

/-- No address is given to two records, no record is lost, and an address is shown to its owner, if
no record is created while a call that is to save waits. -/
theorem handed_out_once (cfg : Config) (s t : State)
    (hs : run.Steps (step cfg) (Heeded cfg) {} s) (ht : run.Steps (step cfg) (Heeded cfg) s t) :
    Exact t ∧ Extends s.file t.file := by
  have hinv : Inv cfg s := hs.invariant (fun _ _ _ h hok hstep => (h.step hok hstep).1) Inv.init
  obtain ⟨hinv, hext⟩ : Inv cfg t ∧ Extends s.file t.file := by
    induction ht with
    | refl => exact ⟨hinv, .refl _⟩
    | tail _ hok hstep ih => exact (ih.1.step hok hstep).imp_right ih.2.trans
  exact ⟨⟨hinv.file.addresses, hinv.file.indices, hinv.file.keys, hinv.shown, hinv.claims⟩, hext⟩

namespace sample

def pool : Pool :=
  { slots := [(0, "pc1zero"), (1, "pc1one"), (2, "pc1two"), (3, "pc1three")], nodup := by decide }

def config : Config :=
  { pool := pool, PER_PERSON := 250, FEE_PCT := 5, TOTAL_ALLOC := 2000, ACCOUNT_MONTHLY_PCN := 1000,
    ACCOUNT_DAILY_PCN := 500, IP_DAILY_PCN := 500, REQUIRE_ACCOUNT := true, fee := by decide +kernel }

def first : Ask := ⟨some "a@pc.am", none, "0x1111111111111111111111111111111111111111", 100⟩

def second : Ask := ⟨some "b@pc.am", none, "0x2222222222222222222222222222222222222222", 100⟩

/-- A request is made by a browser. -/
def asks (browser id : Nat) (a : Ask) : List Event :=
  [.arrives browser a, .loads id { now := 0 } false]

end sample

open sample in
theorem handed_out_once_reused :
    ∃ s t, run.exec (step config) {} (asks 0 0 first ++ asks 1 1 second) = some s ∧
      run.exec (step config) s (asks 0 2 { first with amount := 50 } ++
        [.reads 2 (some 0) { now := 1 } false]) = some t ∧
      t.file.requests.map (fun r => (r.index, r.amount)) = [(1, 50), (2, 100)] ∧
      Exact t ∧ Extends s.file t.file := by
  have hrun : ((run.exec (step config) {} (asks 0 0 first ++ asks 1 1 second)).map fun s =>
      ((run.exec (step config) s (asks 0 2 { first with amount := 50 } ++
        [.reads 2 (some 0) { now := 1 } false])).map fun t =>
          t.file.requests.map fun r => (r.index, r.amount),
        decide (run.Meets (step config) (Heeded config) s (asks 0 2 { first with amount := 50 } ++
          [.reads 2 (some 0) { now := 1 } false])))) = some (some [(1, 50), (2, 100)], true) := by
    decide +kernel
  obtain ⟨s, hs, heq⟩ := Option.map_eq_some_iff.mp hrun
  obtain ⟨ht, hmeets⟩ := Prod.mk.inj heq
  obtain ⟨t, ht, hrows⟩ := Option.map_eq_some_iff.mp ht
  refine ⟨s, t, hs, ht, hrows, handed_out_once config s t (run.steps_of_exec _ hs ?_)
    (run.steps_of_exec _ ht (of_decide_eq_true hmeets))⟩
  decide +kernel

open sample in
/-- While a request waits for the deposits of an earlier one, another account is given an address.
It is given again, and its record is lost. -/
theorem waiting_request_given_again :
    ¬∀ cfg s t, run.Steps (step cfg) (fun _ _ => True) {} s →
      run.Steps (step cfg) (fun _ _ => True) s t → Exact t ∧ Extends s.file t.file := by
  have hrun : ((run.exec (step config) {} (asks 0 0 first ++ asks 0 1 first ++ asks 1 2 second ++
      [.reads 1 (some 1) { now := 1 } false])).map fun s =>
        (s.shown.map Shown.address, decide (∀ x ∈ s.shown, s.MayShow x))) =
      some (["pc1one", "pc1two", "pc1two"], false) := by
    decide +kernel
  obtain ⟨s, hexec, heq⟩ := Option.map_eq_some_iff.mp hrun
  intro hall
  have hexact := (hall config {} s (.refl _) (run.steps_of_exec _ hexec (run.meets_true _ _))).1
  exact of_decide_eq_false (Prod.mk.inj heq).2 hexact.shown

end pcoin.wrapdesk.desk
