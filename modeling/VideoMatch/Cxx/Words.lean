/-
VideoMatch.Cxx.Words — machine integers and their bytes in a mapped file.

`int` is a 32-bit two's complement integer, and `(int)n` of a `size_t`
is `toInt n`: the value modulo 2^32, read as signed. Integers lie in
memory with the low byte first, so `*(int*)s` reads back what
`*(int*)s = i` stored (`intOf_intBytes`).

A mapped file is a byte list `f`, a pointer into it an integer offset
`s`: pointer arithmetic may carry it anywhere, and a read that leaves
`[0, f.length)` is `none`. `Ahead f s rest` says that the pointer stands
in the file with exactly the bytes `rest` before it. A walk over a
record is then a chain of steps, each turning `Ahead f s (bs ++ rest)`
into the value of `bs` and `Ahead f (s + |bs|) rest`.
-/
import VideoMatch.Cxx.Loops

namespace VideoMatch.Cxx

/-- A string of `char`, or a piece of memory. -/
abbrev Bytes := List UInt8

/-- The bytes of an ASCII literal. -/
def ascii (s : String) : Bytes := s.toList.map (fun c => UInt8.ofNat c.toNat)

/-- Without a NUL the terminator is the end. -/
theorem takeWhile_ne_zero {bs : Bytes} (h : 0 ∉ bs) : bs.takeWhile (· ≠ 0) = bs := by
  rw [List.takeWhile_eq_self_iff]
  intro b hb
  simpa using ne_of_mem_of_not_mem hb h

/-! ## Integers -/

/-- The conversion of a `size_t` to `int`: the low 32 bits, read as
signed. -/
def toInt (n : Nat) : Int :=
  if n % 2 ^ 32 < 2 ^ 31 then (n % 2 ^ 32 : Nat) else (n % 2 ^ 32 : Nat) - 2 ^ 32

theorem toInt_of_lt {n : Nat} (h : n < 2 ^ 31) : toInt n = n := by
  have hmod : n % 2 ^ 32 = n := Nat.mod_eq_of_lt (by omega)
  rw [toInt, hmod, if_pos h]

theorem toInt_lt (n : Nat) : toInt n < 2 ^ 31 := by
  unfold toInt
  split <;> omega

theorem toNat_toInt_le (n : Nat) : (toInt n).toNat ≤ n := by
  unfold toInt
  split <;> omega

theorem toNat_toInt_of_lt {n : Nat} (h : n < 2 ^ 31) : (toInt n).toNat = n := by
  rw [toInt_of_lt h, Int.toNat_natCast]

theorem toNat_toInt_lt (n : Nat) : (toInt n).toNat < 2 ^ 31 := by
  have h := toInt_lt n
  omega

/-- Only the low 32 bits matter. -/
theorem toInt_mod (n : Nat) : toInt (n % 2 ^ 32) = toInt n := by
  rw [toInt, toInt, Nat.mod_mod]

theorem toInt_emod (n : Nat) : (toInt n % 2 ^ 32).toNat = n % 2 ^ 32 := by
  unfold toInt
  split <;> omega

/-- `i + 1` in an `int`. -/
def intSucc (i : Int) : Option Int := if i + 1 < 2 ^ 31 then some (i + 1) else none

theorem intSucc_toInt_iff {n : Nat} {j : Int} (h : n < 2 ^ 31) :
    intSucc (toInt n) = some j ↔ n + 1 < 2 ^ 31 ∧ j = n + 1 := by
  rw [toInt_of_lt h, intSucc, Option.ite_none_right_eq_some, Option.some.injEq]
  constructor
  · intro hj
    exact ⟨by omega, hj.2.symm⟩
  · intro hj
    exact ⟨by omega, hj.2.symm⟩

/-- The `k` low bytes of `n`, lowest first. -/
def leBytes : Nat → Nat → Bytes
  | 0, _ => []
  | k + 1, n => UInt8.ofNat n :: leBytes k (n / 256)

/-- The number whose bytes these are, lowest first. -/
def leNat : Bytes → Nat
  | [] => 0
  | b :: bs => b.toNat + 256 * leNat bs

@[simp] theorem length_leBytes (k n : Nat) : (leBytes k n).length = k := by
  induction k generalizing n with
  | zero => rfl
  | succ k ih => simp [leBytes, ih]

theorem leNat_leBytes (k n : Nat) : leNat (leBytes k n) = n % 256 ^ k := by
  induction k generalizing n with
  | zero => simp [leBytes, leNat, Nat.mod_one]
  | succ k ih =>
      have hb : (UInt8.ofNat n).toNat = n % 256 := UInt8.toNat_ofNat'
      rw [leBytes, leNat, ih, hb, Nat.pow_succ, Nat.mul_comm (256 ^ k) 256,
        Nat.mod_mul]

/-- The four bytes of an `int`. -/
def intBytes (i : Int) : Bytes := leBytes 4 (i % 2 ^ 32).toNat

/-- `*(int*)` of four bytes. -/
def intOf (bs : Bytes) : Int := toInt (leNat bs)

/-- The eight bytes of a `uint64_t`. -/
def u64Bytes (h : UInt64) : Bytes := leBytes 8 h.toNat

/-- `*(uint64_t*)` of eight bytes. -/
def u64Of (bs : Bytes) : UInt64 := UInt64.ofNat (leNat bs)

@[simp] theorem length_intBytes (i : Int) : (intBytes i).length = 4 := length_leBytes 4 _

@[simp] theorem length_u64Bytes (h : UInt64) : (u64Bytes h).length = 8 := length_leBytes 8 _

theorem intOf_intBytes (n : Nat) : intOf (intBytes (toInt n)) = toInt n := by
  have hpow : 256 ^ 4 = 2 ^ 32 := by norm_num
  rw [intOf, intBytes, leNat_leBytes, toInt_emod, hpow, Nat.mod_mod, toInt_mod]

theorem u64Of_u64Bytes (h : UInt64) : u64Of (u64Bytes h) = h := by
  have hlt : h.toNat < 256 ^ 8 := by
    have := h.toNat_lt
    norm_num at this ⊢; exact this
  rw [u64Of, u64Bytes, leNat_leBytes, Nat.mod_eq_of_lt hlt, UInt64.ofNat_toNat]

/-! ## Reads from a mapped file -/

/-- The `n` bytes at `s`, all of them inside the file. -/
def bytesAt (f : Bytes) (s : Int) (n : Nat) : Option Bytes :=
  if 0 ≤ s ∧ s + n ≤ f.length then some ((f.drop s.toNat).take n) else none

/-- `*(int*)s`. -/
def intAt (f : Bytes) (s : Int) : Option Int := (bytesAt f s 4).map intOf

/-- `*(uint64_t*)s`. -/
def u64At (f : Bytes) (s : Int) : Option UInt64 := (bytesAt f s 8).map u64Of

/-- `string(s)`: the bytes up to the first NUL, which must lie inside the
file. -/
def cstrAt (f : Bytes) (s : Int) : Option Bytes :=
  if 0 ≤ s ∧ 0 ∈ f.drop s.toNat then some ((f.drop s.toNat).takeWhile (· ≠ 0)) else none

theorem lt_of_intAt {f : Bytes} {s i : Int} (h : intAt f s = some i) : i < 2 ^ 31 := by
  obtain ⟨bs, -, rfl⟩ := Option.map_eq_some_iff.mp h
  exact toInt_lt _

/-! ### Reads that stay inside

A read that succeeds reads the same in any longer file. -/

theorem agrees_bytesAt (f more : Bytes) (s : Int) (n : Nat) :
    Agrees (bytesAt f s n) (bytesAt (f ++ more) s n) := by
  intro bs h
  unfold bytesAt at h ⊢
  split at h
  · next hin =>
      obtain ⟨h0, hn⟩ := hin
      have hlen : s.toNat + n ≤ f.length := by omega
      rw [if_pos ⟨h0, by rw [List.length_append]; push_cast; omega⟩, ← h,
        List.drop_append_of_le_length (by omega),
        List.take_append_of_le_length (by rw [List.length_drop]; omega)]
  · cases h

theorem agrees_intAt (f more : Bytes) (s : Int) : Agrees (intAt f s) (intAt (f ++ more) s) :=
  (agrees_bytesAt f more s 4).map intOf

theorem agrees_u64At (f more : Bytes) (s : Int) : Agrees (u64At f s) (u64At (f ++ more) s) :=
  (agrees_bytesAt f more s 8).map u64Of

theorem agrees_cstrAt (f more : Bytes) (s : Int) :
    Agrees (cstrAt f s) (cstrAt (f ++ more) s) := by
  intro bs h
  unfold cstrAt at h ⊢
  split at h
  · next hin =>
      obtain ⟨h0, hzero⟩ := hin
      have hle : s.toNat ≤ f.length := by
        by_contra hgt
        rw [List.drop_eq_nil_of_le (by omega)] at hzero
        cases hzero
      rw [List.drop_append_of_le_length hle,
        if_pos ⟨h0, List.mem_append.mpr (.inl hzero)⟩, ← h, List.takeWhile_append]
      have hstop : (List.takeWhile (fun b => decide (b ≠ 0)) (f.drop s.toNat)).length
          ≠ (f.drop s.toNat).length := by
        intro heq
        have hall := (List.takeWhile_prefix (fun b : UInt8 => decide (b ≠ 0))).eq_of_length heq
        rw [← hall] at hzero
        simpa using List.mem_takeWhile_imp hzero
      rw [if_neg hstop]
  · cases h

/-! ### Walking -/

/-- The pointer `s` stands in `f` with the bytes `rest` before it. -/
def Ahead (f : Bytes) (s : Int) (rest : Bytes) : Prop :=
  ∃ pre, f = pre ++ rest ∧ s = pre.length

theorem ahead_start (f : Bytes) : Ahead f 0 f := ⟨[], rfl, rfl⟩

/-- What lies ahead is what is left of the file. -/
theorem Ahead.drop_eq {f : Bytes} {s : Int} {rest : Bytes} (h : Ahead f s rest) :
    0 ≤ s ∧ f.drop s.toNat = rest ∧ s + rest.length = f.length := by
  obtain ⟨pre, rfl, rfl⟩ := h
  refine ⟨by omega, by simp, ?_⟩
  push_cast [List.length_append]; rfl

theorem Ahead.advance {f : Bytes} {s : Int} {bs rest : Bytes} (h : Ahead f s (bs ++ rest)) :
    Ahead f (s + bs.length) rest := by
  obtain ⟨pre, rfl, rfl⟩ := h
  exact ⟨pre ++ bs, by simp, by push_cast [List.length_append]; rfl⟩

theorem Ahead.bytesAt_eq {f : Bytes} {s : Int} {bs rest : Bytes} {n : Nat}
    (h : Ahead f s (bs ++ rest)) (hn : bs.length = n) : bytesAt f s n = some bs := by
  obtain ⟨h0, hdrop, hlen⟩ := h.drop_eq
  subst hn
  rw [bytesAt, if_pos ⟨h0, by rw [List.length_append] at hlen; push_cast at hlen; omega⟩, hdrop,
    List.take_left' rfl]

theorem Ahead.intAt_eq {f : Bytes} {s : Int} {n : Nat} {rest : Bytes}
    (h : Ahead f s (intBytes (toInt n) ++ rest)) : intAt f s = some (toInt n) := by
  rw [intAt, h.bytesAt_eq (length_intBytes _), Option.map_some, intOf_intBytes]

theorem Ahead.u64At_eq {f : Bytes} {s : Int} {x : UInt64} {rest : Bytes}
    (h : Ahead f s (u64Bytes x ++ rest)) : u64At f s = some x := by
  rw [u64At, h.bytesAt_eq (length_u64Bytes _), Option.map_some, u64Of_u64Bytes]

/-- A NUL-terminated piece reads back up to its own first NUL. -/
theorem Ahead.cstrAt_eq {f : Bytes} {s : Int} {bs rest : Bytes}
    (h : Ahead f s (bs ++ 0 :: rest)) : cstrAt f s = some (bs.takeWhile (· ≠ 0)) := by
  obtain ⟨h0, hdrop, -⟩ := h.drop_eq
  rw [cstrAt, hdrop, if_pos ⟨h0, by simp⟩, List.takeWhile_append]
  by_cases hbs : (bs.takeWhile (fun b => decide (b ≠ 0))).length = bs.length
  · rw [if_pos hbs]
    have hall : bs.takeWhile (fun b => decide (b ≠ 0)) = bs :=
      (List.takeWhile_prefix _).eq_of_length hbs
    simp only [hall]
    simp
  · rw [if_neg hbs]

/-- A loop that steps over the pieces `enc x` one after the other, each
step failing unless `ok x`, fails unless all are `ok` and else ends behind
the last piece. -/
theorem times_pieces_iff {α : Type*} {f : Bytes} {step : Int → Option Int} {enc : α → Bytes}
    {ok : α → Prop} {rest : Bytes} : ∀ (xs : List α) {s t : Int},
    (∀ x ∈ xs, ∀ rest s t, Ahead f s (enc x ++ rest) →
      (step s = some t ↔ ok x ∧ t = s + (enc x).length)) →
    Ahead f s (xs.flatMap enc ++ rest) →
    (times step xs.length s = some t ↔
      (∀ x ∈ xs, ok x) ∧ t = s + (xs.flatMap enc).length) := by
  intro xs
  induction xs with
  | nil =>
      intro s t _ _
      simp only [List.length_nil, times, List.flatMap_nil, Nat.cast_zero, Int.add_zero,
        List.not_mem_nil, false_implies, implies_true, true_and, Option.some.injEq]
      exact eq_comm
  | cons x xs ih =>
      intro s t hstep h
      rw [List.flatMap_cons, List.append_assoc] at h
      have hx : ∀ t, step s = some t ↔ ok x ∧ t = s + (enc x).length :=
        fun t => hstep x (by simp) _ s t h
      have hrest := ih (t := t) (fun y hy => hstep y (List.mem_cons_of_mem _ hy)) h.advance
      have hpos : s + ((x :: xs).flatMap enc).length
          = s + (enc x).length + (xs.flatMap enc).length := by
        rw [List.flatMap_cons, List.length_append]
        push_cast
        ring
      rw [hpos, List.forall_mem_cons, List.length_cons, times, Option.bind_eq_some_iff, and_assoc,
        ← hrest]
      constructor
      · intro hloop
        obtain ⟨u, hu, hloop⟩ := hloop
        obtain ⟨hok, rfl⟩ := (hx u).mp hu
        exact ⟨hok, hloop⟩
      · intro hloop
        exact ⟨_, (hx _).mpr ⟨hloop.1, rfl⟩, hloop.2⟩

/-- `string(s)` never holds a NUL. -/
theorem zero_not_mem_of_cstrAt {f : Bytes} {s : Int} {bs : Bytes} (h : cstrAt f s = some bs) :
    0 ∉ bs := by
  rw [cstrAt] at h
  split at h
  · cases h
    intro hmem
    simpa using List.mem_takeWhile_imp hmem
  · cases h

end VideoMatch.Cxx
