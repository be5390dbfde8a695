/-
VideoMatch.Cxx.Json — values of the JSON library.

`Json` is the value type. Numbers written without a fraction are `int`,
whatever the signedness the library stores them with. The members of an
object are kept in the order of their keys, as in the map the library
uses, so equal objects are equal lists.

Only what the operations below promise is modelled: `isMember` is defined
on objects and on null and raises on everything else, `operator[]` creates
what it is asked to assign, and a number is converted to 64 unsigned bits
or the conversion raises. Raising is `none`. Arrays are not limited to the
range of the library's index type.

The parser and the writer are parameters, collected in `JsonCpp`. What a
result needs of them it states as `RoundTrips` of particular values.
-/
import VideoMatch.Cxx.Words

namespace VideoMatch.Cxx

inductive Json where
  | null
  | bool (b : Bool)
  | int (i : Int)
  | real (q : ℚ)
  | str (s : Bytes)
  | arr (xs : List Json)
  | obj (ms : List (Bytes × Json))

/-- The members of an object, in the order of their keys. -/
abbrev Members := List (Bytes × Json)

namespace Json

/-- The member under `key`, if there is one. -/
def find? (ms : Members) (key : Bytes) : Option Json :=
  (ms.find? fun m => m.1 = key).map Prod.snd

/-- `v[key] = x`. -/
def set : Members → Bytes → Json → Members
  | [], key, x => [(key, x)]
  | (k, y) :: ms, key, x =>
      if k = key then (k, x) :: ms
      else if key < k then (key, x) :: (k, y) :: ms
      else (k, y) :: set ms key x

/-- `a[i] = x` on an array or on null; missing elements are null. -/
def setIndex (a : Json) (i : Nat) (x : Json) : Option Json :=
  match a with
  | .null => some (.arr (List.replicate i .null ++ [x]))
  | .arr xs =>
      if i < xs.length then some (.arr (xs.set i x))
      else some (.arr (xs ++ List.replicate (i - xs.length) .null ++ [x]))
  | _ => none

/-- `v[key][i] = x`. -/
def setElement (ms : Members) (key : Bytes) (i : Nat) (x : Json) : Option Members := do
  let a ← ((find? ms key).getD .null).setIndex i x
  some (set ms key a)

/-- The loop `v[key][i] = xs[i]`. -/
def setElements (ms : Members) (key : Bytes) (xs : List Json) : Option Members :=
  (List.range xs.length).foldlM (fun ms i => xs[i]?.bind (setElement ms key i)) ms

/-- `v.isMember(key)`, and `v[key]` where it is. -/
def member : Json → Bytes → Option (Option Json)
  | .null, _ => some none
  | .obj ms, key => some (find? ms key)
  | _, _ => none

/-- `asUInt64()`. -/
def asUInt64 : Json → Option UInt64
  | .null => some 0
  | .bool b => some (if b then 1 else 0)
  | .int i => if 0 ≤ i ∧ i.toNat < 2 ^ 64 then some (UInt64.ofNat i.toNat) else none
  | .real q => if 0 ≤ q ∧ ⌊q⌋.toNat < 2 ^ 64 then some (UInt64.ofNat ⌊q⌋.toNat) else none
  | _ => none

/-- A 64-bit number converts back to itself. -/
theorem asUInt64_toNat (f : UInt64) : (Json.int f.toNat).asUInt64 = some f := by
  rw [asUInt64, Int.toNat_natCast, if_pos ⟨Int.natCast_nonneg _, f.toNat_lt⟩, UInt64.ofNat_toNat]

/-! ## Members -/

@[simp] theorem find?_set_self (ms : Members) (key : Bytes) (x : Json) :
    find? (set ms key x) key = some x := by
  induction ms with
  | nil => simp [find?, set]
  | cons m ms ih =>
      obtain ⟨k, y⟩ := m
      rw [set]
      by_cases hk : k = key
      · simp [find?, hk]
      · rw [if_neg hk]
        by_cases hlt : key < k
        · simp [find?, hlt]
        · rw [if_neg hlt]
          simpa [find?, hk] using ih

theorem find?_set_of_ne (ms : Members) {key k : Bytes} (x : Json) (h : k ≠ key) :
    find? (set ms key x) k = find? ms k := by
  induction ms with
  | nil => simp [find?, set, Ne.symm h]
  | cons m ms ih =>
      obtain ⟨j, y⟩ := m
      rw [set]
      by_cases hj : j = key
      · subst hj
        simp [find?, Ne.symm h]
      · rw [if_neg hj]
        by_cases hlt : key < j
        · simp [find?, hlt, Ne.symm h]
        · rw [if_neg hlt]
          by_cases hjk : j = k
          · simp [find?, hjk]
          · simpa [find?, hjk] using ih

/-- The last assignment of a member counts. -/
theorem set_set (ms : Members) (key : Bytes) (x y : Json) :
    set (set ms key x) key y = set ms key y := by
  induction ms with
  | nil => simp [set]
  | cons m ms ih =>
      obtain ⟨k, z⟩ := m
      rw [set, set]
      by_cases hk : k = key
      · simp [hk, set]
      · rw [if_neg hk, if_neg hk]
        by_cases hlt : key < k
        · simp [hlt, set]
        · rw [if_neg hlt, if_neg hlt, set, if_neg hk, if_neg hlt, ih]

/-! ## Arrays -/

/-- After `k` elements have been assigned, the member is the array of them;
before the first it is not there. -/
theorem setElements_take {ms : Members} {key : Bytes} (hnew : find? ms key = none)
    (xs : List Json) : ∀ k ≤ xs.length,
    (List.range k).foldlM (fun ms i => xs[i]?.bind (setElement ms key i)) ms
      = some (if k = 0 then ms else set ms key (.arr (xs.take k))) := by
  intro k
  induction k with
  | zero => intro _; rfl
  | succ k ih =>
      intro hk
      have hget : xs[k]? = some xs[k] := List.getElem?_eq_getElem _
      have htake : xs.take (k + 1) = xs.take k ++ [xs[k]] := List.take_succ_eq_append_getElem _
      rw [List.range_succ, List.foldlM_append, ih (by omega), if_neg (Nat.succ_ne_zero k), htake]
      simp only [Option.bind_eq_bind, Option.bind_some, List.foldlM_cons, List.foldlM_nil, hget,
        Option.pure_def, Option.bind_fun_some, setElement]
      by_cases h0 : k = 0
      · subst h0
        simp [hnew, setIndex]
      · have hlen : (xs.take k).length = k := List.length_take_of_le (by omega)
        rw [if_neg h0, find?_set_self, Option.getD_some, setIndex, hlen, if_neg (lt_irrefl k)]
        simp [set_set]

/-- Elements assigned one after another to a member that was not there make
the array of these elements; without elements there is no member. -/
theorem setElements_eq {ms : Members} {key : Bytes} (hnew : find? ms key = none)
    (xs : List Json) :
    setElements ms key xs = some (if xs = [] then ms else set ms key (.arr xs)) := by
  rw [setElements, setElements_take hnew xs xs.length le_rfl, List.take_length]
  simp only [List.length_eq_zero_iff]

end Json

/-- The parser and the writer of the library. -/
structure JsonCpp where
  parse : Bytes → Option Json
  write : Json → Bytes

/-- The writer's text for `v` is free of NUL and parses to `v`. -/
def JsonCpp.RoundTrips (J : JsonCpp) (v : Json) : Prop :=
  J.parse (J.write v) = some v ∧ 0 ∉ J.write v

theorem JsonCpp.RoundTrips.of_text {J : JsonCpp} {v : Json} {text : Bytes}
    (hwrite : J.write v = text) (hparse : J.parse text = some v) (hzero : 0 ∉ text) :
    J.RoundTrips v := by
  rw [JsonCpp.RoundTrips, hwrite]
  exact ⟨hparse, hzero⟩

end VideoMatch.Cxx
