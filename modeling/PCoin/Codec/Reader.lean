import Mathlib.Data.List.Basic

namespace codec

variable {ε α β : Type}

/-- A reader of a buffer of bytes, from a position on. -/
def Reader (ε α : Type) := List UInt8 → Nat → Except ε (α × Nat)

namespace Reader

def pure (a : α) : Reader ε α := fun _ pos => .ok (a, pos)

def bind (r : Reader ε α) (f : α → Reader ε β) : Reader ε β := fun buf pos =>
  match r buf pos with
  | .error e => .error e
  | .ok (a, pos) => f a buf pos

instance : Monad (Reader ε) := { pure := pure, bind := bind }

def fail (e : ε) : Reader ε α := fun _ _ => .error e

def position : Reader ε Nat := fun _ pos => .ok (pos, pos)

def remaining : Reader ε Nat := fun buf pos => .ok (buf.length - pos, pos)

/-- The next `n` bytes, or the error when there are fewer. -/
def take (short : Nat → Nat → ε) (n : Nat) : Reader ε (List UInt8) := fun buf pos =>
  if buf.length < pos + n then .error (short pos (buf.length - pos))
  else .ok ((buf.drop pos).take n, pos + n)

/-- The same reader so many times. -/
def times (r : Reader ε α) : Nat → Reader ε (List α)
  | 0 => pure []
  | n + 1 => bind r fun a => bind (times r n) fun as => pure (a :: as)

/-- A reader for each element. -/
def each (f : α → Reader ε β) : List α → Reader ε (List β)
  | [] => pure []
  | a :: as => bind (f a) fun b => bind (each f as) fun bs => pure (b :: bs)

end Reader

/-- One after the other, as each is written. -/
inductive Each (R : α → List UInt8 → Prop) : List α → List UInt8 → Prop
  | nil : Each R [] []
  | cons {a : α} {as : List α} {xs ys : List UInt8} (ha : R a xs) (has : Each R as ys) :
      Each R (a :: as) (xs ++ ys)

/-- What is made of each, as it is written. -/
inductive Through (R : α → β → List UInt8 → Prop) : List α → List β → List UInt8 → Prop
  | nil : Through R [] [] []
  | cons {a : α} {b : β} {as : List α} {bs : List β} {xs ys : List UInt8} (ha : R a b xs)
      (has : Through R as bs ys) : Through R (a :: as) (b :: bs) (xs ++ ys)

/-- A reader takes the bytes of a value wherever they stand, and no others. -/
structure Parses (r : Reader ε α) (R : α → List UInt8 → Prop) : Prop where
  accepts : ∀ {a bs}, R a bs → ∀ pre post, r (pre ++ bs ++ post) pre.length = .ok (a, pre.length + bs.length)
  sound : ∀ {a pre rest pos}, r (pre ++ rest) pre.length = .ok (a, pos) →
    ∃ bs post, rest = bs ++ post ∧ pos = pre.length + bs.length ∧ R a bs

namespace Parses

variable {R : α → List UInt8 → Prop} {S : α → β → List UInt8 → Prop} {r : Reader ε α}

theorem congr {R' : α → List UInt8 → Prop} (h : Parses r R) (hR : ∀ a bs, R a bs ↔ R' a bs) :
    Parses r R' where
  accepts ha := h.accepts ((hR _ _).mpr ha)
  sound hread := by
    obtain ⟨bs, post, hrest, hpos, ha⟩ := h.sound hread
    exact ⟨bs, post, hrest, hpos, (hR _ _).mp ha⟩

theorem pure (a : α) : Parses (Pure.pure a : Reader ε α) (fun b bs => b = a ∧ bs = []) where
  accepts := by
    rintro _ _ ⟨rfl, rfl⟩ pre post
    rfl
  sound := by
    intro b pre rest pos h
    cases h
    exact ⟨[], rest, rfl, rfl, rfl, rfl⟩

theorem fail (e : ε) : Parses (Reader.fail e : Reader ε α) (fun _ _ => False) where
  accepts h := h.elim
  sound h := by cases h

theorem bind {f : α → Reader ε β} (h : Parses r R) (hf : ∀ a, Parses (f a) (S a)) :
    Parses (r >>= f) (fun b bs => ∃ a xs ys, bs = xs ++ ys ∧ R a xs ∧ S a b ys) where
  accepts := by
    rintro b _ ⟨a, xs, ys, rfl, ha, hb⟩ pre post
    have hfirst := h.accepts ha pre (ys ++ post)
    have hsecond := (hf a).accepts hb (pre ++ xs) post
    rw [← List.append_assoc] at hfirst
    rw [← List.append_assoc pre]
    change Reader.bind r f _ _ = _
    rw [Reader.bind, hfirst]
    dsimp only
    rw [← List.length_append, hsecond, List.length_append, List.length_append, Nat.add_assoc]
  sound := by
    intro b pre rest pos hread
    change Reader.bind r f _ _ = _ at hread
    rw [Reader.bind] at hread
    split at hread
    case h_1 => cases hread
    case h_2 a pos₁ hfirst =>
      obtain ⟨xs, post, rfl, rfl, ha⟩ := h.sound hfirst
      rw [← List.append_assoc, ← List.length_append] at hread
      obtain ⟨ys, post, rfl, rfl, hb⟩ := (hf a).sound hread
      exact ⟨xs ++ ys, post, by rw [List.append_assoc], by simp [Nat.add_assoc], a, xs, ys, rfl, ha, hb⟩

theorem take (short : Nat → Nat → ε) (n : Nat) :
    Parses (Reader.take short n) (fun a bs => a = bs ∧ bs.length = n) where
  accepts := by
    rintro a _ ⟨rfl, rfl⟩ pre post
    rw [Reader.take, if_neg (by simp), List.append_assoc, List.drop_left, List.take_left]
  sound := by
    intro a pre rest pos h
    rw [Reader.take] at h
    split at h
    case isTrue => cases h
    case isFalse hlong =>
      rw [List.length_append] at hlong
      rw [List.drop_left] at h
      obtain ⟨rfl, rfl⟩ := Prod.mk.inj (Except.ok.inj h)
      have hlen : (rest.take n).length = n := by
        rw [List.length_take]
        omega
      exact ⟨rest.take n, rest.drop n, (List.take_append_drop n rest).symm, by rw [hlen], rfl, hlen⟩

theorem ite {c : Prop} [Decidable c] {r' : Reader ε α} {R' : α → List UInt8 → Prop} (h : c → Parses r R)
    (h' : ¬c → Parses r' R') :
    Parses (if c then r else r') (fun a bs => c ∧ R a bs ∨ ¬c ∧ R' a bs) := by
  by_cases hc : c
  · rw [if_pos hc]
    exact (h hc).congr fun a bs => by simp [hc]
  · rw [if_neg hc]
    exact (h' hc).congr fun a bs => by simp [hc]

theorem times (h : Parses r R) (n : Nat) :
    Parses (Reader.times r n) (fun as bs => as.length = n ∧ Each R as bs) := by
  induction n with
  | zero =>
    refine (pure []).congr fun as bs => ⟨?_, ?_⟩
    · rintro ⟨rfl, rfl⟩
      exact ⟨rfl, .nil⟩
    · rintro ⟨hlen, heach⟩
      obtain rfl := List.eq_nil_of_length_eq_zero hlen
      cases heach
      exact ⟨rfl, rfl⟩
  | succ n ih =>
    refine (h.bind fun a => ih.bind fun as => pure (a :: as)).congr fun as bs => ⟨?_, ?_⟩
    · rintro ⟨a, xs, ys, rfl, ha, as', zs, ws, rfl, ⟨rfl, heach⟩, rfl, rfl⟩
      rw [List.append_nil]
      exact ⟨rfl, .cons ha heach⟩
    · rintro ⟨hlen, heach⟩
      cases heach with
      | nil => cases hlen
      | @cons a as xs ys ha has =>
        exact ⟨a, xs, ys, rfl, ha, as, ys, [], (List.append_nil ys).symm, ⟨Nat.succ.inj hlen, has⟩, rfl, rfl⟩

theorem each {f : α → Reader ε β} (hf : ∀ a, Parses (f a) (S a)) (as : List α) :
    Parses (Reader.each f as) (Through S as) := by
  induction as with
  | nil =>
    refine (pure []).congr fun bs xs => ⟨?_, ?_⟩
    · rintro ⟨rfl, rfl⟩
      exact .nil
    · intro h
      cases h
      exact ⟨rfl, rfl⟩
  | cons a as ih =>
    refine ((hf a).bind fun b => ih.bind fun bs => pure (b :: bs)).congr fun bs zs => ⟨?_, ?_⟩
    · rintro ⟨b, xs, ys, rfl, hb, bs', ys, ws, rfl, hbs, rfl, rfl⟩
      rw [List.append_nil]
      exact .cons hb hbs
    · intro h
      cases h with
      | @cons _ b _ bs xs ys hb hbs =>
        exact ⟨b, xs, ys, rfl, hb, bs, ys, [], (List.append_nil ys).symm, hbs, rfl, rfl⟩

end Parses

/-! ### Reading on -/

theorem Reader.bind_of_ok {r : Reader ε α} {f : α → Reader ε β} {buf : List UInt8} {pos pos' : Nat} {a : α}
    (h : r buf pos = .ok (a, pos')) : (r >>= f) buf pos = f a buf pos' := by
  change Reader.bind r f buf pos = _
  rw [Reader.bind, h]

theorem Reader.bind_eq_ok {r : Reader ε α} {f : α → Reader ε β} {buf : List UInt8} {pos : Nat} {p : β × Nat} :
    (r >>= f) buf pos = .ok p ↔ ∃ a pos', r buf pos = .ok (a, pos') ∧ f a buf pos' = .ok p := by
  change Reader.bind r f buf pos = _ ↔ _
  rw [Reader.bind]
  cases r buf pos with
  | error e => simp
  | ok a =>
    obtain ⟨a, pos'⟩ := a
    constructor
    · exact fun h => ⟨a, pos', rfl, h⟩
    · rintro ⟨_, _, heq, h⟩
      obtain ⟨rfl, rfl⟩ := Prod.mk.inj (Except.ok.inj heq)
      exact h

/-- The position stands between what was read and what is left. -/
structure At (buf : List UInt8) (pos : Nat) (pre rest : List UInt8) : Prop where
  split : buf = pre ++ rest
  pos : pos = pre.length

section

variable {R : α → List UInt8 → Prop} {r : Reader ε α} {buf pre rest bs : List UInt8} {pos pos' : Nat} {a : α}

theorem At.start (buf : List UInt8) : At buf 0 [] buf := ⟨rfl, rfl⟩

theorem At.skip (h : At buf pos pre (bs ++ rest)) : At buf (pos + bs.length) (pre ++ bs) rest :=
  ⟨by rw [h.split, List.append_assoc], by rw [h.pos, List.length_append]⟩

theorem Parses.run (hr : Parses r R) (h : At buf pos pre (bs ++ rest)) (ha : R a bs) :
    r buf pos = .ok (a, pos + bs.length) := by
  rw [h.split, h.pos, ← List.append_assoc]
  exact hr.accepts ha pre rest

theorem Parses.step (hr : Parses r R) (h : At buf pos pre rest) (hread : r buf pos = .ok (a, pos')) :
    ∃ bs post, rest = bs ++ post ∧ R a bs ∧ At buf pos' (pre ++ bs) post := by
  rw [h.split, h.pos] at hread
  obtain ⟨bs, post, rfl, rfl, ha⟩ := hr.sound hread
  exact ⟨bs, post, rfl, ha, by rw [h.split, List.append_assoc], by rw [List.length_append]⟩

end

/-- The reader takes these bytes for this value, wherever they stand. -/
def Reads (r : Reader ε α) (a : α) (bs : List UInt8) : Prop :=
  ∀ pre post, r (pre ++ bs ++ post) pre.length = .ok (a, pre.length + bs.length)

namespace Reads

variable {r : Reader ε α} {a : α} {bs : List UInt8}

theorem pure (a : α) : Reads (Pure.pure a : Reader ε α) a [] := fun _ _ => rfl

theorem bind {f : α → Reader ε β} {b : β} {xs ys : List UInt8} (ha : Reads r a xs) (hb : Reads (f a) b ys) :
    Reads (r >>= f) b (xs ++ ys) := by
  intro pre post
  have hfirst := ha pre (ys ++ post)
  have hsecond := hb (pre ++ xs) post
  rw [← List.append_assoc] at hfirst
  rw [← List.append_assoc pre, Reader.bind_of_ok hfirst, ← List.length_append, hsecond]
  simp [Nat.add_assoc]

/-- The last step of a reader takes no more bytes. -/
theorem map {f : α → Reader ε β} {b : β} (ha : Reads r a bs) (hb : Reads (f a) b []) :
    Reads (r >>= f) b bs := by
  have h := ha.bind hb
  rwa [List.append_nil] at h

theorem take (short : Nat → Nat → ε) {n : Nat} (hn : bs.length = n) :
    Reads (Reader.take short n) bs bs :=
  (Parses.take short n).accepts ⟨rfl, hn⟩

theorem times {as : List α} {f : α → List UInt8} (h : ∀ a ∈ as, Reads r a (f a)) :
    Reads (Reader.times r as.length) as (as.map f).flatten := by
  induction as with
  | nil => exact pure []
  | cons a as ih =>
    obtain ⟨ha, has⟩ := List.forall_mem_cons.mp h
    exact ha.bind ((ih has).map (pure (a :: as)))

theorem each {f : α → Reader ε β} {g : β → α} {h : β → List UInt8} {bs : List β}
    (hf : ∀ b ∈ bs, Reads (f (g b)) b (h b)) :
    Reads (Reader.each f (bs.map g)) bs (bs.map h).flatten := by
  induction bs with
  | nil => exact pure []
  | cons b bs ih =>
    obtain ⟨hb, hbs⟩ := List.forall_mem_cons.mp hf
    exact hb.bind ((ih hbs).map (pure (b :: bs)))

/-- A whole buffer. -/
theorem run (h : Reads r a bs) : r bs 0 = .ok (a, bs.length) := by
  have hall := h [] []
  rwa [List.nil_append, List.append_nil, List.length_nil, Nat.zero_add] at hall

end Reads

/-! ### Written by a function -/

theorem each_map {γ : Type} {R : γ → List UInt8 → Prop} {f : γ → α} {as : List α} {bs : List UInt8} :
    Each (fun a bs => ∃ c, a = f c ∧ R c bs) as bs ↔ ∃ cs, as = cs.map f ∧ Each R cs bs := by
  constructor
  · intro h
    induction h with
    | nil => exact ⟨[], rfl, .nil⟩
    | cons ha _ ih =>
      obtain ⟨c, rfl, hc⟩ := ha
      obtain ⟨cs, rfl, hcs⟩ := ih
      exact ⟨c :: cs, rfl, .cons hc hcs⟩
  · rintro ⟨cs, rfl, h⟩
    induction h with
    | nil => exact .nil
    | cons hc _ ih => exact .cons ⟨_, rfl, hc⟩ ih

theorem each_flatten {R : α → List UInt8 → Prop} {f : α → List UInt8} {as : List α} (h : ∀ a ∈ as, R a (f a)) :
    Each R as (as.map f).flatten := by
  induction as with
  | nil => exact .nil
  | cons a as ih =>
    exact .cons (h a List.mem_cons_self) (ih fun b hb => h b (List.mem_cons_of_mem _ hb))

end codec
