/-
VideoMatch.Browse.CutTheorems — when the way a request is cut into reads
cannot be seen.

A request is a header block, which ends with its first empty line, and a
body. If the block passes the checks by itself, is short enough for the size
check and announces at least as many bytes as the body has, each cut gives
what the block and the body say (`feed_of_head`). If nothing that can have
arrived with the end of the block passes, each cut is refused
(`feed_of_refused`). These are the only requests for which all cuts agree
(`cuts_agree_iff`): otherwise a first read of 4097 bytes, a read that ends
with the block, or single bytes give something else than another cut.
-/
import VideoMatch.Browse.ParseTheorems

namespace VideoMatch.Browse

open VideoMatch.Cxx

namespace HttpConnection

/-! ## Requests and cuts -/

/-- The block ends with its first empty line. -/
def HeaderBlock (hd : Bytes) : Prop :=
  ∃ k, find hd (ascii "\r\n\r\n") 0 = some k ∧ k + 4 = hd.length

/-- The reads, of 1 to 8192 bytes each, bring exactly `s`. -/
structure Cuts (s : Bytes) (rs : List Bytes) : Prop where
  whole : rs.flatten = s
  size : ∀ r ∈ rs, 1 ≤ r.length ∧ r.length ≤ 8192

/-- The header is complete in `buf` and passes the checks. -/
def Passes (buf : Bytes) : Prop := (find buf (ascii "\r\n\r\n") 0).isSome ∧ (headOf buf).isSome

/-- The most that can have arrived when the block is complete: without its
last byte and the size check the block could have gone on, and one read
more came in. -/
def widest (hd body : Bytes) : Bytes := (hd ++ body).take (min 4096 (hd.length - 1) + 8192)

section

variable {hd body : Bytes}

theorem HeaderBlock.four_le (h : HeaderBlock hd) : 4 ≤ hd.length := by
  obtain ⟨k, -, hk⟩ := h
  omega

theorem HeaderBlock.ne_nil (h : HeaderBlock hd) : hd ≠ [] := by
  rintro rfl
  simpa using h.four_le

theorem HeaderBlock.find_append (h : HeaderBlock hd) (b : Bytes) :
    ∃ k, find (hd ++ b) (ascii "\r\n\r\n") 0 = some k ∧ k + 4 = hd.length := by
  obtain ⟨k, hfind, hk⟩ := h
  exact ⟨k, Cxx.find_append b hfind, hk⟩

/-- Within the block there is no empty line. -/
theorem HeaderBlock.find_eq_none (h : HeaderBlock hd) {p : Bytes} (hpre : p <+: hd)
    (hlt : p.length < hd.length) : find p (ascii "\r\n\r\n") 0 = none := by
  obtain ⟨k, hfind, hk⟩ := h
  cases hp : find p (ascii "\r\n\r\n") 0 with
  | none => rfl
  | some i =>
      obtain ⟨t, rfl⟩ := hpre
      have hsame := hfind.symm.trans (Cxx.find_append t hp)
      have hbound := (find_bounds hp).2
      simp [ascii] at hsame hbound hlt hk
      omega

/-- The read that brings the end of the block. -/
theorem HeaderBlock.read (h : HeaderBlock hd) {p r b : Bytes} (heq : p ++ r = hd ++ b) :
    Phase.read (.header p) r = Phase.enter (headOf (hd ++ b)) b := by
  obtain ⟨k, hk, hlen⟩ := h.find_append b
  have hdrop : (hd ++ b).drop (k + 4) = b := by simp [hlen]
  simp only [Phase.read, heq, hk, hdrop]

/-- A read within the block. -/
theorem HeaderBlock.read_within (h : HeaderBlock hd) {p r : Bytes} (hpre : p ++ r <+: hd)
    (hlt : (p ++ r).length < hd.length) :
    Phase.read (.header p) r =
      if (p ++ r).length > 4096 then .error .rejected else .ok (.header (p ++ r)) := by
  simp only [Phase.read, h.find_eq_none hpre hlt]

theorem HeaderBlock.getLast? (h : HeaderBlock hd) : hd.getLast? = some 10 := by
  obtain ⟨k, hfind, hk⟩ := h
  have hlen : (ascii "\r\n\r\n").length = (hd.drop k).length := by
    rw [List.length_drop]
    simp [ascii]
    omega
  have hdrop := (find_isPrefix hfind).eq_of_length hlen
  have hlast : (hd.drop k).getLast? = some 10 := by rw [← hdrop]; rfl
  rwa [List.getLast?_drop, if_neg (by omega)] at hlast

theorem Passes.append {s : Bytes} (t : Bytes) (h : Passes s) : Passes (s ++ t) := by
  obtain ⟨hend, hhead⟩ := h
  obtain ⟨k, hk⟩ := Option.isSome_iff_exists.mp hend
  obtain ⟨hd, hhd⟩ := Option.isSome_iff_exists.mp hhead
  obtain ⟨hd', hhd', -⟩ := headOf_append t hhd
  exact ⟨by simp [Cxx.find_append t hk], by simp [hhd']⟩

end

/-! ## Every cut -/

/-- The parser ends by itself, or is where all the bytes take it. -/
theorem collect_feed (path : Bytes) {size : Nat} : ∀ (rs : List Bytes) {q : Bytes},
    (q ++ rs.flatten).length ≤ size →
    (Phase.collect path size q).bind (fun p => rs.foldlM Phase.read p)
      = Phase.collect path size (q ++ rs.flatten) := by
  intro rs
  induction rs with
  | nil =>
      intro q _
      rw [List.flatten_nil, List.append_nil]
      unfold Phase.collect
      split <;> rfl
  | cons r rs ih =>
      intro q h
      by_cases hle : size ≤ q.length
      · -- all bytes are there, and the other reads are empty
        have hnil : (r :: rs).flatten = [] := by
          rw [List.length_append] at h
          exact List.eq_nil_of_length_eq_zero (by omega)
        rw [hnil, List.append_nil]
        simp only [Phase.collect, hle, if_true]
        rfl
      · rw [List.flatten_cons, ← List.append_assoc] at h ⊢
        rw [← ih h]
        simp only [Phase.collect, hle, if_false, Except.bind, List.foldlM_cons]
        rfl

section

variable {hd body : Bytes}

/-- A block that passes by itself is read the same from every cut. -/
theorem feed_of_head {h : Head} (hblock : HeaderBlock hd) (hshort : hd.length ≤ 4097)
    (hhead : headOf hd = some h) (hsize : h.type = .HTTP_POST → body.length ≤ h.size) :
    ∀ (rs : List Bytes) {p : Bytes}, p.length < hd.length → p ++ rs.flatten = hd ++ body →
      rs.foldlM Phase.read (.header p) = Phase.enter (some h) body := by
  intro rs
  induction rs with
  | nil =>
      intro p hp heq
      have hlen := congrArg List.length heq
      simp at hlen
      omega
  | cons r rs ih =>
      intro p hp heq
      rw [List.flatten_cons, ← List.append_assoc] at heq
      have hpre : p ++ r <+: hd ++ body := ⟨_, heq⟩
      rw [List.foldlM_cons]
      by_cases hlt : (p ++ r).length < hd.length
      · have hpre' : p ++ r <+: hd :=
          List.prefix_of_prefix_length_le hpre (List.prefix_append hd body) hlt.le
        have hlong : ¬ (p ++ r).length > 4096 := by omega
        rw [hblock.read_within hpre' hlt, if_neg hlong]
        exact ih hlt heq
      · obtain ⟨b, hb⟩ : hd <+: p ++ r :=
          List.prefix_of_prefix_length_le (List.prefix_append hd body) hpre (by omega)
        have hbody : b ++ rs.flatten = body := by
          rw [← hb, List.append_assoc] at heq
          exact List.append_cancel_left heq
        obtain ⟨h', hh', htype, hpath, hsame⟩ := headOf_append b hhead
        rw [hblock.read hb.symm, hh']
        by_cases hpost : h.type = .HTTP_POST
        · have hle := hsize hpost
          have hsize' : h'.size = h.size := by
            by_cases hzero : h.size = 0
            · -- nothing is announced, so nothing has arrived
              have hnil : b = [] := by
                rw [hzero, ← hbody, List.length_append] at hle
                exact List.eq_nil_of_length_eq_zero (by omega)
              rw [hnil, List.append_nil, hhead] at hh'
              cases hh'
              rfl
            · exact hsame hzero hblock.getLast?
          simp only [Phase.enter, htype, hpost, if_true, hpath, hsize']
          rw [← hbody] at hle ⊢
          exact collect_feed _ rs hle
        · simp only [Phase.enter, htype, hpost, if_false, hpath]
          rfl

/-- If nothing that can have arrived passes, the request is refused. -/
theorem feed_of_refused (hblock : HeaderBlock hd) (hnot : ¬ Passes (widest hd body)) :
    ∀ (rs : List Bytes) {p : Bytes}, (∀ r ∈ rs, r.length ≤ 8192) →
      p.length ≤ min 4096 (hd.length - 1) → p ++ rs.flatten = hd ++ body →
      rs.foldlM Phase.read (.header p) = .error .rejected := by
  have hfour := hblock.four_le
  intro rs
  induction rs with
  | nil =>
      intro p _ hp heq
      have hlen := congrArg List.length heq
      simp at hlen
      omega
  | cons r rs ih =>
      intro p hle hp heq
      rw [List.flatten_cons, ← List.append_assoc] at heq
      have hpre : p ++ r <+: hd ++ body := ⟨_, heq⟩
      rw [List.foldlM_cons]
      cases hfind : find (p ++ r) (ascii "\r\n\r\n") 0 with
      | none =>
          by_cases hlong : (p ++ r).length > 4096
          · simp only [Phase.read, hfind, hlong, if_true]
            rfl
          · -- the block is not complete, or its end would have been found
            have hlt : (p ++ r).length < hd.length := by
              by_contra hge
              obtain ⟨b, hb⟩ : hd <+: p ++ r :=
                List.prefix_of_prefix_length_le (List.prefix_append hd body) hpre (by omega)
              obtain ⟨k, hk, -⟩ := hblock.find_append b
              rw [← hb, hk] at hfind
              cases hfind
            simp only [Phase.read, hfind, hlong, if_false]
            exact ih (fun r hr => hle r (List.mem_cons_of_mem _ hr)) (by omega) heq
      | some k =>
          have hwide : p ++ r <+: widest hd body := by
            rw [widest, List.prefix_take_iff]
            have hr := hle r (by simp)
            exact ⟨hpre, by rw [List.length_append]; omega⟩
          have hnone : headOf (p ++ r) = none := by
            cases hhead : headOf (p ++ r) with
            | none => rfl
            | some h =>
                obtain ⟨t, ht⟩ := hwide
                have hpasses : Passes (p ++ r) := ⟨by simp [hfind], by simp [hhead]⟩
                exact absurd (ht ▸ hpasses.append t) hnot
          simp only [Phase.read, hfind, hnone]
          rfl

end

/-! ## Some cuts -/

theorem Cuts.append {s t : Bytes} {rs ts : List Bytes} (hs : Cuts s rs) (ht : Cuts t ts) :
    Cuts (s ++ t) (rs ++ ts) := by
  refine ⟨by simp [hs.whole, ht.whole], fun r hr => ?_⟩
  rcases List.mem_append.mp hr with hr | hr
  · exact hs.size r hr
  · exact ht.size r hr

theorem cuts_one {r : Bytes} (h : r ≠ []) (hle : r.length ≤ 8192) : Cuts r [r] := by
  have hpos := List.length_pos_iff.mpr h
  exact ⟨by simp, by simp; omega⟩

/-- Each byte comes alone. -/
def singles (t : Bytes) : List Bytes := t.map fun b => [b]

@[simp] theorem flatten_singles (t : Bytes) : (singles t).flatten = t := by
  induction t with
  | nil => rfl
  | cons b t ih => simpa [singles] using ih

theorem cuts_singles (t : Bytes) : Cuts t (singles t) := by
  refine ⟨flatten_singles t, fun r hr => ?_⟩
  obtain ⟨b, -, rfl⟩ := List.mem_map.mp hr
  simp

/-- A first read, the rest byte by byte. -/
theorem cuts_take {s : Bytes} {n : Nat} (hn : 1 ≤ n) (hle : n ≤ 8192) (hs : s ≠ []) :
    Cuts s (s.take n :: singles (s.drop n)) := by
  have hone : Cuts (s.take n) [s.take n] :=
    cuts_one (by simp [List.take_eq_nil_iff, hs]; omega) (by simp; omega)
  simpa using hone.append (cuts_singles (s.drop n))

/-- Byte by byte the parser ends as soon as it can. -/
theorem collect_singles (path : Bytes) {size : Nat} : ∀ (t : Bytes) {q : Bytes},
    q.length ≤ size → size ≤ (q ++ t).length →
    (Phase.collect path size q).bind (fun p => (singles t).foldlM Phase.read p)
      = .error (.accepted .HTTP_POST path ((q ++ t).take size)) := by
  intro t
  induction t with
  | nil =>
      intro q hle hge
      rw [List.append_nil] at hge ⊢
      simp only [Phase.collect, hge, if_true, List.take_of_length_le hle]
      rfl
  | cons b t ih =>
      intro q hle hge
      by_cases hdone : size ≤ q.length
      · have hsize : size = q.length := by omega
        simp only [Phase.collect, if_true, hsize, List.take_left, le_refl]
        rfl
      · have hstep := ih (q := q ++ [b]) (by simp; omega) (by simpa using hge)
        rw [List.append_assoc, List.singleton_append] at hstep
        rw [← hstep]
        simp only [singles, List.map_cons, List.foldlM_cons, Phase.collect, hdone, if_false,
          Except.bind]
        rfl

/-- Once the head is known the request is not refused, and what has arrived
of the body stays. -/
theorem collect_feed_cases (path : Bytes) (size : Nat) : ∀ (rs : List Bytes) (q : Bytes),
    (∃ p, (Phase.collect path size q).bind (fun p => rs.foldlM Phase.read p) = .ok p) ∨
    ∃ q', (Phase.collect path size q).bind (fun p => rs.foldlM Phase.read p)
      = .error (.accepted .HTTP_POST path q') ∧ q <+: q' := by
  intro rs
  induction rs with
  | nil =>
      intro q
      by_cases hle : size ≤ q.length
      · exact .inr ⟨q, by simp only [Phase.collect, hle, if_true]; rfl, List.prefix_rfl⟩
      · exact .inl ⟨.body path size q, by simp only [Phase.collect, hle, if_false]; rfl⟩
  | cons r rs ih =>
      intro q
      by_cases hle : size ≤ q.length
      · exact .inr ⟨q, by simp only [Phase.collect, hle, if_true]; rfl, List.prefix_rfl⟩
      · have hstep : (Phase.collect path size q).bind (fun p => (r :: rs).foldlM Phase.read p)
            = (Phase.collect path size (q ++ r)).bind fun p => rs.foldlM Phase.read p := by
          simp only [Phase.collect, hle, if_false, Except.bind, List.foldlM_cons]
          rfl
        rw [hstep]
        rcases ih (q ++ r) with hok | ⟨q', hq', hpre⟩
        · exact .inl hok
        · exact .inr ⟨q', hq', (List.prefix_append q r).trans hpre⟩

theorem enter_feed_ne {h : Head} {b : Bytes} (rs : List Bytes) :
    Phase.outcome ((Phase.enter (some h) b).bind fun p => rs.foldlM Phase.read p)
      ≠ some .rejected := by
  unfold Phase.enter
  by_cases hpost : h.type = .HTTP_POST
  · simp only [hpost, if_true]
    rcases collect_feed_cases h.path h.size rs b with ⟨p, hp⟩ | ⟨q, hq, -⟩
    · simp [hp, Phase.outcome]
    · simp [hq, Phase.outcome]
  · simp [hpost, Except.bind, Phase.outcome]

section

variable {hd body : Bytes}

/-- A block beyond the size check is refused by a read that stops short of
its end. -/
theorem refused_early (body : Bytes) (hblock : HeaderBlock hd) (hlong : 4098 ≤ hd.length) :
    ∃ rs, Cuts (hd ++ body) rs ∧
      Phase.outcome (rs.foldlM Phase.read (.header [])) = some .rejected := by
  have hs : hd ++ body ≠ [] := by simp [hblock.ne_nil]
  refine ⟨_, cuts_take (n := 4097) (by omega) (by omega) hs, ?_⟩
  have htake : (hd ++ body).take 4097 = hd.take 4097 := List.take_append_of_le_length (by omega)
  have hlen : (hd.take 4097).length = 4097 := by simp; omega
  have hread := hblock.read_within (p := []) (r := hd.take 4097) (List.take_prefix _ _)
    (by simp; omega)
  rw [htake, List.foldlM_cons, hread, List.nil_append, hlen]
  rfl

/-- A block that does not pass is refused if it comes alone. -/
theorem refused_alone (body : Bytes) (hblock : HeaderBlock hd) (hshort : hd.length ≤ 4097)
    (hnone : headOf hd = none) :
    ∃ rs, Cuts (hd ++ body) rs ∧
      Phase.outcome (rs.foldlM Phase.read (.header [])) = some .rejected := by
  have hcut : Cuts hd [hd] := cuts_one hblock.ne_nil (by omega)
  refine ⟨[hd] ++ singles body, hcut.append (cuts_singles body), ?_⟩
  have hread := hblock.read (p := []) (r := hd) (b := []) (by simp)
  rw [List.append_nil, hnone] at hread
  rw [List.singleton_append, List.foldlM_cons, hread]
  rfl

/-- If the most that can arrive passes, it can arrive. -/
theorem not_refused (hblock : HeaderBlock hd) (hpasses : Passes (widest hd body)) :
    ∃ rs, Cuts (hd ++ body) rs ∧
      Phase.outcome (rs.foldlM Phase.read (.header [])) ≠ some .rejected := by
  have hfour := hblock.four_le
  obtain ⟨n, hn⟩ : ∃ n, n = min 4096 (hd.length - 1) := ⟨_, rfl⟩
  obtain ⟨rest, hrest⟩ : ∃ rest, rest = (hd ++ body).drop n := ⟨_, rfl⟩
  have htake : (hd ++ body).take n = hd.take n := List.take_append_of_le_length (by omega)
  have hsplit : hd.take n ++ rest = hd ++ body := by rw [← htake, hrest, List.take_append_drop]
  have hlen : (hd.take n).length = n := by simp; omega
  have hwide : hd.take n ++ rest.take 8192 = widest hd body := by
    have hfull : (hd.take n).take (n + 8192) = hd.take n := List.take_of_length_le (by omega)
    rw [widest, ← hn, ← hsplit, List.take_append, hfull, hlen, Nat.add_sub_cancel_left]
  -- the first read stays within the block, the second one brings its end
  have hfirst := hblock.read_within (p := []) (r := hd.take n) (List.take_prefix _ _)
    (by rw [List.nil_append, hlen]; omega)
  rw [List.nil_append, hlen, if_neg (by omega)] at hfirst
  obtain ⟨b, hb⟩ : hd <+: widest hd body := by
    have hpre : widest hd body <+: hd ++ body := List.take_prefix _ _
    by_contra hnot
    have hlt : (widest hd body).length < hd.length := by
      by_contra hge
      exact hnot (List.prefix_of_prefix_length_le (List.prefix_append _ _) hpre (by omega))
    have hwithin := List.prefix_of_prefix_length_le hpre (List.prefix_append hd body) hlt.le
    have hsome := hpasses.1
    rw [hblock.find_eq_none hwithin hlt] at hsome
    cases hsome
  obtain ⟨head, hhead⟩ := Option.isSome_iff_exists.mp hpasses.2
  have hsecond := hblock.read (p := hd.take n) (r := rest.take 8192) (b := b) (by rw [hwide, hb])
  rw [hb, hhead] at hsecond
  have hcut : Cuts (hd.take n ++ rest)
      ([hd.take n] ++ rest.take 8192 :: singles (rest.drop 8192)) := by
    have hne : hd.take n ≠ [] := List.ne_nil_of_length_pos (by omega)
    have hne' : rest ≠ [] := by
      refine List.ne_nil_of_length_pos ?_
      rw [hrest, List.length_drop, List.length_append]
      omega
    exact (cuts_one hne (by omega)).append (cuts_take (by omega) le_rfl hne')
  refine ⟨_, hsplit ▸ hcut, ?_⟩
  have hrun := enter_feed_ne (h := head) (b := b) (singles (rest.drop 8192))
  rw [List.singleton_append, List.foldlM_cons, hfirst]
  show Phase.outcome ((rest.take 8192 :: singles (rest.drop 8192)).foldlM Phase.read
    (.header (hd.take n))) ≠ _
  rw [List.foldlM_cons, hsecond]
  exact hrun

section

variable {h : Head} (hblock : HeaderBlock hd) (hhead : headOf hd = some h)
  (hpost : h.type = .HTTP_POST)

include hblock hhead hpost

/-- The block alone leaves the body open. -/
theorem read_alone : Phase.read (.header []) hd = Phase.collect h.path h.size [] := by
  have hread := hblock.read (p := []) (r := hd) (b := []) (by simp)
  rw [List.append_nil, hhead] at hread
  simpa [Phase.enter, hpost] using hread

/-- Byte by byte exactly what is announced is taken. -/
theorem takes_announced (hlt : h.size < body.length) :
    Phase.outcome (([hd] ++ singles body).foldlM Phase.read (.header []))
      = some (.accepted .HTTP_POST h.path (body.take h.size)) := by
  have hsingles := collect_singles h.path body (q := []) (Nat.zero_le h.size)
    (by simpa using hlt.le)
  rw [List.singleton_append, List.foldlM_cons, read_alone hblock hhead hpost]
  show Phase.outcome ((Phase.collect h.path h.size []).bind _) = _
  rw [hsingles]
  rfl

/-- If nothing is announced, a byte of the body that comes with the end of
the block is taken. -/
theorem takes_first (hshort : hd.length ≤ 4097) (hzero : h.size = 0) (hlt : h.size < body.length) :
    ∃ rs, Cuts (hd ++ body) rs ∧ ∀ type path,
      Phase.outcome (rs.foldlM Phase.read (.header []))
        ≠ some (.accepted type path (body.take h.size)) := by
  have hcut : Cuts (hd ++ body.take 1) [hd ++ body.take 1] := by
    refine cuts_one (by simp [hblock.ne_nil]) ?_
    rw [List.length_append, List.length_take]
    omega
  have hcuts := hcut.append (cuts_singles (body.drop 1))
  rw [List.append_assoc, List.take_append_drop] at hcuts
  refine ⟨_, hcuts, fun type path => ?_⟩
  obtain ⟨h', hh', htype, -⟩ := headOf_append (body.take 1) hhead
  have hfirst := hblock.read (p := []) (r := hd ++ body.take 1) (b := body.take 1) rfl
  rw [hh'] at hfirst
  simp only [Phase.enter, htype, hpost, if_true] at hfirst
  rw [List.singleton_append, List.foldlM_cons, hfirst]
  show Phase.outcome ((Phase.collect h'.path h'.size (body.take 1)).bind _) ≠ _
  rcases collect_feed_cases h'.path h'.size (singles (body.drop 1)) (body.take 1)
    with ⟨p, hp⟩ | ⟨q, hq, hpre⟩
  · rw [hp]
    simp [Phase.outcome]
  · intro heq
    simp only [hq, Phase.outcome, Option.some.injEq, Outcome.accepted.injEq, hzero,
      List.take_zero] at heq
    have hle := hpre.length_le
    rw [heq.2.2, List.length_take, List.length_nil] at hle
    omega

/-- If something is announced, two bytes of the body that come at once where
one is wanted are both taken. -/
theorem takes_two (hshort : hd.length ≤ 4097) {n : Nat} (hsize : h.size = n + 1)
    (hlt : h.size < body.length) :
    ∃ rs, Cuts (hd ++ body) rs ∧ ∀ type path,
      Phase.outcome (rs.foldlM Phase.read (.header []))
        ≠ some (.accepted type path (body.take h.size)) := by
  have hne : body.drop n ≠ [] := by
    rw [Ne, List.drop_eq_nil_iff]
    omega
  have hcut : Cuts hd [hd] := cuts_one hblock.ne_nil (by omega)
  have hcuts := (hcut.append (cuts_singles (body.take n))).append
    (cuts_take (n := 2) (by omega) (by omega) hne)
  rw [List.append_assoc, List.take_append_drop] at hcuts
  refine ⟨_, hcuts, fun type path heq => ?_⟩
  have hle : ([] ++ (singles (body.take n)).flatten).length ≤ h.size := by
    simp
    omega
  have hnot : ¬ n + 1 ≤ (body.take n).length := by simp
  have hrun : ([hd] ++ singles (body.take n)).foldlM Phase.read (.header [])
      = .ok (.body h.path (n + 1) (body.take n)) := by
    have hfeed := collect_feed h.path _ hle
    rw [flatten_singles, List.nil_append] at hfeed
    rw [List.singleton_append, List.foldlM_cons, read_alone hblock hhead hpost]
    refine hfeed.trans ?_
    simp only [hsize, Phase.collect, hnot, if_false]
  have htwo : n + 1 ≤ (body.take n ++ (body.drop n).take 2).length := by
    simp
    omega
  have hlast : Phase.read (.body h.path (n + 1) (body.take n)) ((body.drop n).take 2)
      = .error (.accepted .HTTP_POST h.path (body.take n ++ (body.drop n).take 2)) := by
    simp only [Phase.read, Phase.collect, htwo, if_true]
  rw [List.foldlM_append, hrun] at heq
  have heq : Phase.outcome (((body.drop n).take 2 :: singles ((body.drop n).drop 2)).foldlM
    Phase.read (.body h.path (n + 1) (body.take n))) = _ := heq
  rw [List.foldlM_cons, hlast] at heq
  have heq : some (Outcome.accepted .HTTP_POST h.path (body.take n ++ (body.drop n).take 2))
    = some (.accepted type path (body.take h.size)) := heq
  rw [Option.some.injEq, Outcome.accepted.injEq, hsize] at heq
  have hlen := congrArg List.length heq.2.2
  simp at hlen
  omega

/-- A body longer than announced is cut off at different places. -/
theorem post_varies (hshort : hd.length ≤ 4097) (hlt : h.size < body.length) :
    ∃ rs₁ rs₂, Cuts (hd ++ body) rs₁ ∧ Cuts (hd ++ body) rs₂ ∧
      Phase.outcome (rs₁.foldlM Phase.read (.header []))
        ≠ Phase.outcome (rs₂.foldlM Phase.read (.header [])) := by
  have hcut : Cuts hd [hd] := cuts_one hblock.ne_nil (by omega)
  obtain ⟨rs, hrs, hmore⟩ : ∃ rs, Cuts (hd ++ body) rs ∧ ∀ type path,
      Phase.outcome (rs.foldlM Phase.read (.header []))
        ≠ some (.accepted type path (body.take h.size)) := by
    cases hsize : h.size with
    | zero => simpa only [hsize] using takes_first hblock hhead hpost hshort hsize hlt
    | succ n => simpa only [hsize] using takes_two hblock hhead hpost hshort hsize hlt
  refine ⟨_, rs, hcut.append (cuts_singles body), hrs, ?_⟩
  rw [takes_announced hblock hhead hpost hlt]
  exact (hmore _ _).symm

end

/-! ## All cuts agree -/

/-- On a fresh connection all ways of cutting the request come to the same
exactly if nothing that can have arrived with the end of the header block
passes, or if the block has at most 4097 bytes, passes by itself and, for a
`POST`, announces (modulo 2^32) no fewer bytes than the body has. -/
theorem cuts_agree_iff (state : State) (type : RequestType) (httpRet : Int) (postsize : Nat)
    (hd body : Bytes) (hblock : HeaderBlock hd) :
    (∀ rs₁ rs₂, Cuts (hd ++ body) rs₁ → Cuts (hd ++ body) rs₂ →
      outcome (feed (new state type httpRet postsize).start rs₁)
        = outcome (feed (new state type httpRet postsize).start rs₂)) ↔
    ¬ Passes (widest hd body) ∨
      hd.length ≤ 4097 ∧ ∃ h, headOf hd = some h ∧
        (h.type = .HTTP_POST → body.length ≤ h.size) := by
  have hfour := hblock.four_le
  have hshows := shows_start state type httpRet postsize
  simp only [fun rs => (feed_agrees rs hshows).outcome_eq]
  constructor
  · intro hall
    by_contra hnot
    rw [not_or, not_not] at hnot
    obtain ⟨hpasses, hnot⟩ := hnot
    obtain ⟨rs, hrs, hne⟩ := not_refused hblock hpasses
    have hrefuted : ∀ rs', Cuts (hd ++ body) rs' →
        Phase.outcome (rs'.foldlM Phase.read (.header [])) ≠ some .rejected := by
      intro rs' hrs'
      rw [hall rs' rs hrs' hrs]
      exact hne
    have hshort : hd.length ≤ 4097 := by
      by_contra hlong
      obtain ⟨rs', hrs', hrej⟩ := refused_early body hblock (by omega)
      exact hrefuted rs' hrs' hrej
    cases hhead : headOf hd with
    | none =>
        obtain ⟨rs', hrs', hrej⟩ := refused_alone body hblock hshort hhead
        exact hrefuted rs' hrs' hrej
    | some h =>
        have hbig : h.type = .HTTP_POST ∧ h.size < body.length := by
          by_contra hsmall
          exact hnot ⟨hshort, h, hhead, fun hpost => by
            by_contra hlt
            exact hsmall ⟨hpost, by omega⟩⟩
        obtain ⟨rs₁, rs₂, h₁, h₂, hdiff⟩ := post_varies hblock hhead hbig.1 hshort hbig.2
        exact hdiff (hall rs₁ rs₂ h₁ h₂)
  · intro h rs₁ rs₂ h₁ h₂
    rcases h with hnot | ⟨hshort, h, hhead, hsize⟩
    · have hrej : ∀ rs, Cuts (hd ++ body) rs →
          rs.foldlM Phase.read (.header []) = .error .rejected := fun rs hrs =>
        feed_of_refused hblock hnot rs (fun r hr => (hrs.size r hr).2) (by simp) hrs.whole
      rw [hrej rs₁ h₁, hrej rs₂ h₂]
    · have hwhole : ∀ rs, Cuts (hd ++ body) rs →
          rs.foldlM Phase.read (.header []) = Phase.enter (some h) body := fun rs hrs =>
        feed_of_head hblock hshort hhead hsize rs (List.length_pos_iff.mpr hblock.ne_nil) hrs.whole
      rw [hwhole rs₁ h₁, hwhole rs₂ h₂]

end

theorem post_cuts_agree :
    outcome (feed (new .kProcessing .HTTP_INVALID 0 0).start
      [ascii "POST / HTTP/1.1\r\nContent-Length: 2\r\n\r\nab"]) =
    outcome (feed (new .kProcessing .HTTP_INVALID 0 0).start
      [ascii "POST / HTTP/1.1\r\nContent-Length: 2\r\n\r", ascii "\na", ascii "b"]) :=
  (cuts_agree_iff .kProcessing .HTTP_INVALID 0 0
    (ascii "POST / HTTP/1.1\r\nContent-Length: 2\r\n\r\n") (ascii "ab")
    ⟨34, by decide +kernel, by decide⟩).mpr
    (.inr ⟨by decide, ⟨.HTTP_POST, ascii "/", 2⟩, by decide +kernel, by decide +kernel⟩) _ _
    ⟨by decide, by decide⟩ ⟨by decide, by decide⟩

/-! ## A long header -/

/-- A `GET` request for a path of `n + 1` bytes. -/
def getRequest (n : Nat) : Bytes :=
  ascii "GET " ++ (47 :: List.replicate n 97 ++ ascii " HTTP/1.1\r\n\r\n")

theorem length_getRequest (n : Nat) : (getRequest n).length = n + 18 := by
  simp [getRequest, ascii]

theorem headerBlock_getRequest (n : Nat) : HeaderBlock (getRequest n) := by
  have hskip := findAt_skip 13 [10, 13, 10] (ascii "\r\n\r\n")
    (s := ascii "GET " ++ (47 :: List.replicate n 97 ++ ascii " HTTP/1.1"))
    (by simp [ascii, List.mem_replicate])
  have hend : findAt [13, 10, 13, 10] (ascii "\r\n\r\n") = some 0 := by decide +kernel
  rw [hend] at hskip
  refine ⟨n + 14, ?_, by rw [length_getRequest]⟩
  simpa [getRequest, find, ascii] using hskip

theorem headOf_getRequest (n : Nat) :
    headOf (getRequest n) = some ⟨.HTTP_GET, 47 :: List.replicate n 97, 0⟩ := by
  have hskip := findAt_skip 32 (ascii "HTTP/1.") (ascii " HTTP/1.1\r\n\r\n")
    (s := 47 :: List.replicate n 97) (by simp [List.mem_replicate])
  have hend : findAt (32 :: ascii "HTTP/1.") (ascii " HTTP/1.1\r\n\r\n") = some 0 := by
    decide +kernel
  have hmethod : methodOf (getRequest n) = some (.HTTP_GET, 4) := rfl
  have hfind : find (getRequest n) (ascii " HTTP/1.") 4 = some (n + 5) := by
    rw [hend] at hskip
    simpa [find, getRequest, ascii] using hskip
  have hpath : ((getRequest n).drop 4).take (n + 1) = 47 :: List.replicate n 97 := by
    have hdrop : (getRequest n).drop 4
        = (47 :: List.replicate n 97) ++ ascii " HTTP/1.1\r\n\r\n" := rfl
    rw [hdrop, List.take_left' (by simp)]
  simp [headOf, hmethod, hfind, hpath]

/-- A header block of 4098 bytes is accepted if it comes in one read and
refused if its last byte comes later. -/
theorem long_header_depends_on_cut :
    HeaderBlock (getRequest 4080) ∧ Cuts (getRequest 4080) [getRequest 4080] ∧
    Cuts (getRequest 4080) [(getRequest 4080).take 4097, (getRequest 4080).drop 4097] ∧
    outcome (feed (new .kProcessing .HTTP_INVALID 0 0).start [getRequest 4080])
      = some (.accepted .HTTP_GET (47 :: List.replicate 4080 97) []) ∧
    outcome (feed (new .kProcessing .HTTP_INVALID 0 0).start
      [(getRequest 4080).take 4097, (getRequest 4080).drop 4097]) = some .rejected := by
  have hblock := headerBlock_getRequest 4080
  have hlen := length_getRequest 4080
  have hhead := headOf_getRequest 4080
  generalize getRequest 4080 = s at *
  have hshows := shows_start .kProcessing .HTTP_INVALID 0 0
  have htake : (s.take 4097).length = 4097 := by simp [hlen]
  refine ⟨hblock, cuts_one hblock.ne_nil (by omega), ⟨by simp, ?_⟩, ?_, ?_⟩
  · simp [hlen]
  · have hread := hblock.read (p := []) (r := s) (b := []) (by simp)
    rw [List.append_nil, hhead] at hread
    rw [(feed_agrees _ hshows).outcome_eq, List.foldlM_cons, hread]
    rfl
  · have hread := hblock.read_within (p := []) (r := s.take 4097) (List.take_prefix _ _)
      (by rw [List.nil_append]; omega)
    rw [List.nil_append, htake, if_pos (by omega)] at hread
    rw [(feed_agrees _ hshows).outcome_eq, List.foldlM_cons, hread]
    rfl

end HttpConnection

end VideoMatch.Browse
