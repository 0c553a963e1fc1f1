import PCoin.PoolClient.Client
import PCoin.Univalue.WellFormed

open pcoin.store pcoin.block pcoin.univalue

namespace pcoin.poolclient

theorem littleEndian_cons (width : Nat) (x : UInt8) (n : Nat) :
    littleEndian (width + 1) (x.toNat + 256 * n) = x :: littleEndian width n := by
  have hx := x.toNat_lt
  rw [littleEndian, List.range_succ_eq_map, List.map_cons, List.map_map]
  congr 1
  · apply UInt8.toNat_inj.mp
    rw [UInt8.toNat_ofNat', pow_zero, Nat.div_one]
    omega
  · refine List.map_congr_left fun i _ => ?_
    have hdiv : (x.toNat + 256 * n) / 256 ^ (i + 1) = n / 256 ^ i := by
      rw [pow_succ', ← Nat.div_div_eq_div_mul]
      congr 1
      omega
    simp only [Function.comp_apply, Nat.succ_eq_add_one, hdiv]

/-- Reading little-endian bytes and writing them again gives the bytes. -/
theorem littleEndian_readLE (b : Bytes) : littleEndian b.length (readLE b) = b := by
  induction b with
  | nil => rfl
  | cons x b ih =>
    show littleEndian (b.length + 1) (x.toNat + 256 * readLE b) = x :: b
    rw [littleEndian_cons, ih]

theorem readLE_lt (b : Bytes) : readLE b < 256 ^ b.length := by
  induction b with
  | nil => decide
  | cons x b ih =>
    have hx := x.toNat_lt
    show x.toNat + 256 * readLE b < 256 ^ (b.length + 1)
    rw [pow_succ']
    omega

theorem littleEndian_word (b : { b : Bytes // b.length = 4 }) :
    littleEndian 4 (UInt32.ofNat (readLE b.val)).toNat = b.val := by
  have hlt := readLE_lt b.val
  rw [b.property] at hlt
  rw [UInt32.toNat_ofNat', Nat.mod_eq_of_lt (by omega)]
  have h := littleEndian_readLE b.val
  rwa [b.property] at h

theorem read_eq (n : Nat) (ss : Bytes) (h : n ≤ ss.length) :
    ∃ (b : { b : Bytes // b.length = n }) (rest : Bytes), DataStream.read n ss = .ok (b, rest) ∧
      ss = b.val ++ rest ∧ rest.length = ss.length - n :=
  ⟨⟨ss.take n, by simpa using h⟩, ss.drop n, by rw [DataStream.read, dif_pos h],
    (List.take_append_drop n ss).symm, List.length_drop⟩

/-- Eighty bytes are a header, and the header writes those bytes. -/
theorem unserialize_eq {ss : Bytes} (h : ss.length = 80) :
    ∃ header, CBlockHeader.Unserialize ss = .ok header ∧ header.Serialize = ss := by
  obtain ⟨version, rest₁, hread₁, rfl, hlen₁⟩ := read_eq 4 ss (by omega)
  obtain ⟨previous, rest₂, hread₂, rfl, hlen₂⟩ := read_eq 32 rest₁ (by omega)
  obtain ⟨merkle, rest₃, hread₃, rfl, hlen₃⟩ := read_eq 32 rest₂ (by omega)
  obtain ⟨time, rest₄, hread₄, rfl, hlen₄⟩ := read_eq 4 rest₃ (by omega)
  obtain ⟨bits, rest₅, hread₅, rfl, hlen₅⟩ := read_eq 4 rest₄ (by omega)
  obtain ⟨nonce, rest₆, hread₆, rfl, hlen₆⟩ := read_eq 4 rest₅ (by omega)
  obtain rfl : rest₆ = [] := List.length_eq_zero_iff.mp (by omega)
  refine ⟨⟨(UInt32.ofNat (readLE version.val)).toInt32, previous, merkle,
    UInt32.ofNat (readLE time.val), UInt32.ofNat (readLE bits.val),
    UInt32.ofNat (readLE nonce.val)⟩, ?_, ?_⟩
  · rw [CBlockHeader.Unserialize, hread₁]
    simp only [bind, Except.bind, hread₂, hread₃, hread₄, hread₅, hread₆]
    rfl
  · simp only [CBlockHeader.Serialize, UInt32.toUInt32_toInt32, littleEndian_word,
      List.append_assoc, List.append_nil]

/-- A job that passes every check of `SetJob`, its height apart. -/
def offered (job : UniValue) : Option PoolJob :=
  match job.field "blob", job.field "target", job.field "job_id" with
  | .str blob, .str target, .str id =>
    match TryParseHex blob.toList with
    | some bytes =>
      if bytes.length ≠ 80 then none
      else
        match CBlockHeader.Unserialize bytes, FromHex target.toList with
        | .ok header, some target => if target = 0 then none else some { id, header, target }
        | _, _ => none
    | none => none
  | _, _, _ => none

/-- The height of a job, 0 where it is no number; `none` where it is no `int`. -/
def heightOf (job : UniValue) : Option Int :=
  match job.field "height" with
  | .num val => integer (-2 ^ 31) (2 ^ 31 - 1) val
  | _ => some 0

/-- What a job installed from the network is: eighty bytes and a target a hash can beat. -/
structure Carries (job : UniValue) (out : PoolJob) : Prop where
  blob : ∃ text bytes, job.field "blob" = .str text ∧ TryParseHex text.toList = some bytes ∧
    bytes.length = 80 ∧ out.header.Serialize = bytes
  target : ∃ text, job.field "target" = .str text ∧ FromHex text.toList = some out.target
  target_ne_zero : out.target ≠ 0
  id : job.field "job_id" = .str out.id

theorem carries_of_offered {job : UniValue} {out : PoolJob} (h : offered job = some out)
    (height : Int) : Carries job { out with height } := by
  unfold offered at h
  split at h
  · rename_i blob target id hblob htarget hid
    split at h
    · rename_i bytes hbytes
      split at h
      · cases h
      rename_i hlength
      obtain ⟨header, hheader, hserial⟩ := unserialize_eq (not_not.mp hlength)
      rw [hheader] at h
      cases htext : FromHex target.toList with
      | none => simp [htext] at h
      | some value =>
        simp only [htext] at h
        split at h
        · cases h
        · rename_i hzero
          cases h
          exact ⟨⟨blob, bytes, hblob, hbytes, not_not.mp hlength, hserial⟩, ⟨target, htarget, htext⟩,
            hzero, hid⟩
    · cases h
  · cases h

theorem offered_of_not_object {job : UniValue} (h : job.isObject = false) : offered job = none := by
  cases job <;> first | rfl | cases h

/-- `SetJob` installs a job that passes the checks, unless its height is no `int`. -/
theorem setJob_eq (p : PoolClient) {job : UniValue} (hwf : WellFormed job) :
    p.SetJob job =
      match offered job with
      | none => .ok p
      | some out =>
        match heightOf job with
        | some height => .ok (p.install { out with height })
        | none => .error "JSON integer out of range" := by
  unfold PoolClient.SetJob
  cases hobject : job.isObject with
  | false => simp [offered_of_not_object hobject, pure, Except.pure]
  | true =>
    simp only [hwf.find_value, offered, heightOf, Bool.not_true, Bool.false_eq_true, if_false,
      bind, Except.bind, pure, Except.pure]
    generalize job.field "blob" = blob
    generalize job.field "target" = target
    generalize job.field "job_id" = id
    generalize job.field "height" = height
    cases blob with
    | str blob =>
      cases target with
      | str target =>
        cases id with
        | str id =>
          simp only [UniValue.isStr, Bool.not_true, Bool.or_false, Bool.false_eq_true, if_false,
            UniValue.get_str]
          cases hbytes : TryParseHex blob.toList with
          | none => rfl
          | some bytes =>
            by_cases hlength : bytes.length = 80
            · obtain ⟨header, hheader, -⟩ := unserialize_eq hlength
              simp only [hlength, ne_eq, not_true_eq_false, if_false, hheader]
              cases htarget : FromHex target.toList with
              | none => rfl
              | some value =>
                by_cases hzero : value = 0
                · simp only [hzero, if_true]
                · simp only [hzero, if_false]
                  cases height with
                  | num val =>
                    simp only [UniValue.isNum, if_true, UniValue.getInt]
                    cases integer (-2 ^ 31) (2 ^ 31 - 1) val <;> rfl
                  | _ => rfl
            · simp only [hlength, ne_eq, not_false_eq_true, if_true]
        | _ => rfl
      | _ => rfl
    | _ => rfl

end pcoin.poolclient

open pcoin.univalue

namespace pcoin.poolclient

/-- A message whose method is `job`. -/
def isPush (msg : UniValue) : Bool :=
  match msg.field "method" with
  | .str val => val = "job"
  | _ => false

/-- The request a reply names; `none` where `id` is no number, or no `int64_t`. -/
def replyId (msg : UniValue) : Option Int :=
  match msg.field "id" with
  | .num val => integer (-2 ^ 63) (2 ^ 63 - 1) val
  | _ => none

/-- A job that passes the checks of `SetJob` has a height it can read. -/
def Readable (job : UniValue) : Prop := offered job ≠ none → heightOf job ≠ none

/-- The line does not make `HandleLine` throw: a number it reads as an integer is one. -/
def Sound (p : PoolClient) (line : List Char) : Prop :=
  ∀ msg, read line = some msg → msg.isObject = true →
    if isPush msg then Readable (msg.field "params")
    else (msg.field "id").isNum = true →
      replyId msg ≠ none ∧
        ∀ id, replyId msg = some id → p.inflight id = some .login →
          (msg.field "error").isNull = true → Readable ((msg.field "result").field "job")

/-- The line is a reply to the request. -/
def Names (line : List Char) (id : Int) : Prop :=
  ∃ msg, read line = some msg ∧ isPush msg = false ∧ replyId msg = some id

/-- The request is no longer in flight. -/
def PoolClient.complete (p : PoolClient) (id : Int) : PoolClient :=
  { p with inflight := Function.update p.inflight id none }

/-- What completing a request of each kind does, beside taking it out of flight. -/
inductive Completed (p : PoolClient) : RequestKind → PoolClient → Prop
  | loggedIn (session : String) : Completed p .login { p with backoff_seconds := 1, session }
  | given (session : String) (job : UniValue) (out : PoolJob) : Carries job out →
      Completed p .login (PoolClient.install { p with backoff_seconds := 1, session } out)
  | accepted : Completed p .submit { p with accepted := p.accepted + 1, consecutive_rejects := 0 }
  | rejected : Completed p .submit
      { p with rejected := p.rejected + 1, consecutive_rejects := p.consecutive_rejects + 1 }
  | kept : Completed p .keepalive p

/-- What a line may do to the connection. -/
inductive Outcome (now : Nat) (p : PoolClient) (line : List Char) : PoolClient → Prop
  | unchanged : Outcome now p line p
  | installed (msg : UniValue) (out : PoolJob) : read line = some msg → isPush msg = true →
      Carries (msg.field "params") out → Outcome now p line (p.install out)
  | completed (id : Int) (kind : RequestKind) (after : PoolClient) : Names line id →
      p.inflight id = some kind → Completed (p.complete id) kind after → Outcome now p line after
  | refused (id : Int) (why : String) : Names line id → p.inflight id = some .login →
      Outcome now p line ((p.complete id).Fail now why true)
  | stale (id : Int) (before : PoolClient) (why : String) : Names line id →
      p.inflight id = some .submit → Completed (p.complete id) .submit before →
      Outcome now p line (before.Fail now why false)

theorem message_eq {err : UniValue} (hwf : WellFormed err) :
    ∃ m, PoolClient.message err = .ok m := by
  unfold PoolClient.message
  split
  · exact ⟨_, hwf.find_value "message"⟩
  · exact ⟨err, rfl⟩

/-- `HandleLine` on a line that is an object. -/
theorem handleLine_eq (cfg : Config) (now : Nat) (p : PoolClient) {line : List Char}
    {msg : UniValue} (hread : read line = some msg) (hobject : msg.isObject = true) :
    p.HandleLine cfg now line =
      if isPush msg then p.SetJob (msg.field "params")
      else if (msg.field "id").isNum then
        match replyId msg with
        | none => .error "JSON integer out of range"
        | some id =>
          match p.inflight id with
          | none => .ok p
          | some .login =>
            (p.complete id).loginReply now (msg.field "error") (msg.field "result")
          | some .submit => (p.complete id).submitReply cfg now (msg.field "error")
          | some .keepalive => .ok (p.complete id)
      else .ok p := by
  have hwf := read_wellFormed hread
  have hpush : isPush msg = true ↔ msg.field "method" = .str "job" := by
    unfold isPush
    split <;> simp_all
  unfold PoolClient.HandleLine
  simp only [hread, hobject, hwf.find_value, Bool.not_true, Bool.false_eq_true, if_false,
    bind, Except.bind, pure, Except.pure]
  split
  · rename_i hmethod
    rw [if_pos (hpush.mpr hmethod)]
  · rename_i hmethod
    rw [if_neg (fun h => hmethod (hpush.mp h))]
    simp only [replyId]
    cases hid : msg.field "id" with
    | num val =>
      simp only [UniValue.isNum, Bool.not_true, Bool.false_eq_true, if_false, if_true,
        UniValue.getInt]
      cases hint : integer (-2 ^ 63) (2 ^ 63 - 1) val with
      | none => rfl
      | some id =>
        simp only
        cases hkind : p.inflight id with
        | none => rfl
        | some kind => cases kind <;> rfl
    | _ => rfl

theorem setJob_iff (p : PoolClient) {job : UniValue} (hwf : WellFormed job) :
    (∃ after, p.SetJob job = .ok after) ↔ Readable job := by
  rw [setJob_eq p hwf, Readable]
  cases offered job with
  | none => simp
  | some out => cases heightOf job <;> simp

/-- `SetJob` leaves the client alone or installs what the job carries. -/
theorem setJob_ok {p after : PoolClient} {job : UniValue} (hwf : WellFormed job)
    (h : p.SetJob job = .ok after) :
    after = p ∨ ∃ out, Carries job out ∧ after = p.install out := by
  rw [setJob_eq p hwf] at h
  cases hoffered : offered job with
  | none =>
    rw [hoffered] at h
    exact .inl (Except.ok.inj h).symm
  | some out =>
    rw [hoffered] at h
    cases hheight : heightOf job with
    | none => simp [hheight] at h
    | some height =>
      simp only [hheight] at h
      exact .inr ⟨_, carries_of_offered hoffered height, (Except.ok.inj h).symm⟩

/-- A login reply without an error, its session kept where it has none. -/
theorem loginReply_eq (p : PoolClient) (now : Nat) {err result : UniValue} (herr : err.isNull = true)
    (hwf : WellFormed result) :
    ∃ session, p.loginReply now err result =
      PoolClient.SetJob { p with backoff_seconds := 1, session } (result.field "job") := by
  unfold PoolClient.loginReply
  simp only [herr, Bool.not_true, Bool.false_eq_true, if_false, hwf.find_value, bind, Except.bind,
    pure, Except.pure]
  cases result with
  | obj keys values => exact ⟨_, rfl⟩
  | _ => exact ⟨_, rfl⟩

theorem loginReply_refused (p : PoolClient) (now : Nat) {err : UniValue} (result : UniValue)
    (herr : err.isNull = false) (hwf : WellFormed err) :
    ∃ why, p.loginReply now err result = .ok (p.Fail now why true) := by
  obtain ⟨m, hm⟩ := message_eq hwf
  unfold PoolClient.loginReply
  simp only [herr, Bool.not_false, if_true, hm, bind, Except.bind, pure, Except.pure]
  exact ⟨_, rfl⟩

/-- A reply to `submit` counts the share, or drops the connection after a run of refusals. -/
theorem submitReply_ok (cfg : Config) (p : PoolClient) (now : Nat) {err : UniValue}
    (hwf : WellFormed err) :
    ∃ after, p.submitReply cfg now err = .ok after ∧ (Completed p .submit after ∨
      ∃ before why, Completed p .submit before ∧ after = before.Fail now why false) := by
  unfold PoolClient.submitReply
  cases herr : err.isNull with
  | true => exact ⟨_, rfl, .inl .accepted⟩
  | false =>
    obtain ⟨m, hm⟩ := message_eq hwf
    simp only [Bool.not_false, if_true, hm, bind, Except.bind, pure, Except.pure]
    split
    · exact ⟨_, rfl, .inr ⟨_, _, .rejected, rfl⟩⟩
    · exact ⟨_, rfl, .inl .rejected⟩

/-- What `HandleLine` does to a sound line. -/
theorem handleLine_sound (cfg : Config) (now : Nat) {p : PoolClient} {line : List Char}
    (h : Sound p line) : ∃ after, p.HandleLine cfg now line = .ok after ∧ Outcome now p line after := by
  cases hread : read line with
  | none => exact ⟨p, by simp [PoolClient.HandleLine, hread, pure, Except.pure], .unchanged⟩
  | some msg =>
    cases hobject : msg.isObject with
    | false =>
      exact ⟨p, by simp [PoolClient.HandleLine, hread, hobject, pure, Except.pure], .unchanged⟩
    | true =>
      have hwf := read_wellFormed hread
      have hsound := h msg hread hobject
      rw [handleLine_eq cfg now p hread hobject]
      by_cases hpush : isPush msg = true
      · rw [if_pos hpush] at hsound ⊢
        obtain ⟨after, hafter⟩ := (setJob_iff p (hwf.field "params")).mpr hsound
        refine ⟨after, hafter, ?_⟩
        obtain rfl | ⟨out, hcarries, rfl⟩ := setJob_ok (hwf.field "params") hafter
        · exact .unchanged
        · exact .installed msg out hread hpush hcarries
      · rw [if_neg hpush] at hsound ⊢
        split
        · rename_i hnum
          obtain ⟨hid, hlogin⟩ := hsound hnum
          obtain ⟨id, hid⟩ := Option.ne_none_iff_exists'.mp hid
          have hnames : Names line id := ⟨msg, hread, by simpa using hpush, hid⟩
          simp only [hid]
          cases hkind : p.inflight id with
          | none => exact ⟨p, rfl, .unchanged⟩
          | some kind =>
            cases kind with
            | login =>
              cases herr : (msg.field "error").isNull with
              | true =>
                obtain ⟨session, heq⟩ :=
                  loginReply_eq (p.complete id) now herr (hwf.field "result")
                have hjob := (hwf.field "result").field "job"
                simp only [heq]
                obtain ⟨after, hafter⟩ := (setJob_iff _ hjob).mpr (hlogin id hid hkind herr)
                refine ⟨after, hafter, .completed id .login after hnames hkind ?_⟩
                obtain rfl | ⟨out, hcarries, rfl⟩ := setJob_ok hjob hafter
                · exact .loggedIn session
                · exact .given session _ out hcarries
              | false =>
                obtain ⟨why, heq⟩ :=
                  loginReply_refused (p.complete id) now (msg.field "result") herr (hwf.field "error")
                exact ⟨_, heq, .refused id why hnames hkind⟩
            | submit =>
              obtain ⟨after, hafter, hdone | ⟨before, why, hdone, rfl⟩⟩ :=
                submitReply_ok cfg (p.complete id) now (hwf.field "error")
              · exact ⟨after, hafter, .completed id .submit after hnames hkind hdone⟩
              · exact ⟨_, hafter, .stale id before why hnames hkind hdone⟩
            | keepalive => exact ⟨_, rfl, .completed id .keepalive _ hnames hkind .kept⟩
        · exact ⟨p, rfl, .unchanged⟩

/-- A line that is handled is sound. -/
theorem sound_of_handleLine {cfg : Config} {now : Nat} {p after : PoolClient} {line : List Char}
    (h : p.HandleLine cfg now line = .ok after) : Sound p line := by
  intro msg hread hobject
  have hwf := read_wellFormed hread
  rw [handleLine_eq cfg now p hread hobject] at h
  by_cases hpush : isPush msg = true
  · rw [if_pos hpush] at h ⊢
    exact (setJob_iff p (hwf.field "params")).mp ⟨after, h⟩
  · rw [if_neg hpush] at h ⊢
    intro hnum
    rw [if_pos hnum] at h
    cases hid : replyId msg with
    | none => simp [hid] at h
    | some id =>
      refine ⟨by simp, ?_⟩
      rintro _ ⟨⟩ hkind herr
      simp only [hid, hkind] at h
      obtain ⟨session, heq⟩ := loginReply_eq (p.complete id) now herr (hwf.field "result")
      exact (setJob_iff _ ((hwf.field "result").field "job")).mp ⟨after, heq ▸ h⟩

/-- `HandleLine` handles a line exactly when it is sound. -/
theorem handleLine_iff (cfg : Config) (now : Nat) (p : PoolClient) (line : List Char) :
    (∃ after, p.HandleLine cfg now line = .ok after ∧ Outcome now p line after) ↔ Sound p line :=
  ⟨fun ⟨_, h, _⟩ => sound_of_handleLine h, handleLine_sound cfg now⟩

end pcoin.poolclient
