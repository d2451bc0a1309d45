import Thor.Core.Sched

/-!
# Frames and reads

What `serve_clients` makes of the reads of a client, for reads of any number and
any sizes.

- `readLoop_frame_iff`: what a turn that ends with the marker has read, and the
  text it has accumulated. The text is not what the reads delivered but what
  `_buf` held after each of them (`overlays`): a read shorter than an earlier one
  leaves the end of the earlier one in place.
- `reassembles_iff`: the accumulated text is what was delivered exactly when no
  read of the frame is shorter than the one before it.
- `detects_iff`: a frame leads to one call, after its last read, exactly when its
  reads are `Undisturbed`.
- `handed_iff`: frames sent without waiting for the answer are all handed to the
  dispatcher exactly when each comes in a read of its own and the client is served up to
  the last of them.
-/

namespace Thor

open CLib

/-! ## What `_buf` holds -/

/-- The string in `_buf` after each of the reads. -/
def overlays (old : Str) : List Str → List Str
  | [] => []
  | c :: cs => recvInto c old :: overlays (recvInto c old) cs

/-- The text the loop appends to `buf`. -/
def appended (old : Str) (cs : List Str) : Str := (overlays old cs).flatten

theorem appended_cons (old c : Str) (cs : List Str) :
    appended old (c :: cs) = recvInto c old ++ appended (recvInto c old) cs := rfl

theorem length_recvInto (c old : Str) : (recvInto c old).length = max c.length old.length := by
  simp only [recvInto, List.length_append, List.length_drop]
  omega

theorem recvInto_of_le {c old : Str} (h : old.length ≤ c.length) : recvInto c old = c := by
  rw [recvInto, List.drop_of_length_le h, List.append_nil]

/-- The marker shows up in `_buf` at the last of the reads and not before. -/
def StopsAtLast (old : Str) : List Str → Prop
  | [] => False
  | [c] => strstr (recvInto c old) marker = true
  | c :: cs => strstr (recvInto c old) marker = false ∧ StopsAtLast (recvInto c old) cs

instance decidableStopsAtLast : ∀ (old : Str) (cs : List Str), Decidable (StopsAtLast old cs)
  | _, [] => inferInstanceAs (Decidable False)
  | _, [_] => inferInstanceAs (Decidable (_ = true))
  | old, c :: c' :: cs =>
    have : Decidable (StopsAtLast (recvInto c old) (c' :: cs)) := decidableStopsAtLast _ _
    inferInstanceAs (Decidable (_ ∧ StopsAtLast (recvInto c old) (c' :: cs)))

theorem StopsAtLast.ne_nil {old : Str} {cs : List Str} (h : StopsAtLast old cs) : cs ≠ [] := by
  rintro rfl
  exact h

theorem stopsAtLast_cons {old c : Str} {cs : List Str} (hcs : cs ≠ []) :
    StopsAtLast old (c :: cs) ↔
      strstr (recvInto c old) marker = false ∧ StopsAtLast (recvInto c old) cs := by
  cases cs with
  | nil => exact absurd rfl hcs
  | cons c' cs => rfl

/-- A turn stops at one place only. -/
theorem StopsAtLast.append_unique : ∀ {cs cs' : List Str} {old : Str},
    StopsAtLast old (cs ++ cs') → StopsAtLast old cs → cs' = []
  | [], _, _, _, h => h.elim
  | c :: cs, cs', old, happ, h => by
    by_cases hcs : cs = []
    -- the turn was over at `c`, where it would have gone on
    · subst hcs
      by_contra hne
      have hmark : strstr (recvInto c old) marker = true := h
      rw [List.cons_append, List.nil_append, stopsAtLast_cons hne, hmark] at happ
      exact absurd happ.1 (by decide)
    · rw [List.cons_append, stopsAtLast_cons (by simp [hcs])] at happ
      exact StopsAtLast.append_unique happ.2 ((stopsAtLast_cons hcs).mp h).2

/-! ## One turn -/

/-- A turn that meets the marker at the last of some reads, with room for what it
appends. -/
theorem readLoop_of_stops : ∀ {cs : List Str} (bytes buf : Str) {old : Str} (rest : List Read),
    StopsAtLast old cs → (buf ++ appended old cs).length < mb 15 →
    readLoop bytes buf old (cs.map .data ++ rest)
      = (.frame (bytes ++ cs.flatten) (buf ++ appended old cs), rest)
  | [], _, _, _, _, h, _ => h.elim
  | c :: cs, bytes, buf, old, rest, h, hfit => by
    rw [appended_cons, ← List.append_assoc] at hfit
    have hfit' : (buf ++ recvInto c old).length < mb 15 := by
      rw [List.length_append] at hfit
      omega
    have hcat : strcat (mb 15) buf (recvInto c old) = some (buf ++ recvInto c old) :=
      strcat_eq_some.mpr ⟨rfl, hfit'⟩
    show readLoop bytes buf old (.data c :: (cs.map .data ++ rest)) = _
    rw [readLoop, hcat]
    by_cases hcs : cs = []
    · subst hcs
      have hmark : strstr (recvInto c old) marker = true := h
      simp [hmark, appended, overlays]
    · obtain ⟨hmark, hrest⟩ := (stopsAtLast_cons hcs).mp h
      have ih := readLoop_of_stops (bytes ++ c) (buf ++ recvInto c old) rest hrest hfit
      simp only [hmark, Bool.false_eq_true, if_false]
      rw [ih, List.flatten_cons, appended_cons, List.append_assoc, List.append_assoc]

/-- What a turn has read when it ends, by the way it ends. -/
theorem readLoop_inv : ∀ {rs : List Read} {bytes buf old : Str} {e : LoopEnd} {rest : List Read},
    readLoop bytes buf old rs = (e, rest) →
    match e with
    | .frame b t => ∃ cs : List Str, rs = cs.map .data ++ rest ∧ b = bytes ++ cs.flatten ∧
        t = buf ++ appended old cs ∧ t.length < mb 15 ∧ StopsAtLast old cs
    | .timeout b => ∃ cs : List Str, rs = cs.map .data ++ .timeout :: rest ∧
        b = bytes ++ cs.flatten
    | .closed b => ∃ cs : List Str, rs = cs.map .data ++ .closed :: rest ∧
        b = bytes ++ cs.flatten
    | .overflow => True
    | .waiting => rest = []
  | [], _, _, _, _, _, h => by
    cases h
    rfl
  | .timeout :: rs, bytes, buf, old, e, rest, h => by
    cases h
    exact ⟨[], rfl, by simp⟩
  | .closed :: rs, bytes, buf, old, e, rest, h => by
    cases h
    exact ⟨[], rfl, by simp⟩
  | .data c :: rs, bytes, buf, old, e, rest, h => by
    rw [readLoop] at h
    -- what `_buf` holds is appended first, and the marker is looked for then
    cases hcat : strcat (mb 15) buf (recvInto c old) with
    | none =>
      rw [hcat] at h
      cases h
      trivial
    | some t =>
      obtain ⟨rfl, hfit⟩ := strcat_eq_some.mp hcat
      rw [hcat] at h
      cases hmark : strstr (recvInto c old) marker with
      | true =>
        simp only [hmark, if_true] at h
        cases h
        exact ⟨[c], rfl, by simp, by simp [appended, overlays], hfit, hmark⟩
      | false =>
        simp only [hmark, Bool.false_eq_true, if_false] at h
        have ih := readLoop_inv h
        cases e with
        | frame b t =>
          obtain ⟨cs, rfl, rfl, rfl, hlt, hstop⟩ := ih
          exact ⟨c :: cs, rfl, by simp, by simp [appended_cons], hlt,
            (stopsAtLast_cons hstop.ne_nil).mpr ⟨hmark, hstop⟩⟩
        | timeout b =>
          obtain ⟨cs, rfl, rfl⟩ := ih
          exact ⟨c :: cs, rfl, by simp⟩
        | closed b =>
          obtain ⟨cs, rfl, rfl⟩ := ih
          exact ⟨c :: cs, rfl, by simp⟩
        | overflow => trivial
        | waiting => exact ih

/-! ## The accumulated text -/

theorem length_flatten_le_appended : ∀ (old : Str) (cs : List Str),
    cs.flatten.length ≤ (appended old cs).length
  | _, [] => Nat.le_refl _
  | old, c :: cs => by
    have ih := length_flatten_le_appended (recvInto c old) cs
    rw [appended_cons, List.flatten_cons, List.length_append, List.length_append,
      length_recvInto]
    omega

/-- Nothing is added to what the reads deliver when none of them is shorter than
what `_buf` held before, and only then. -/
theorem appended_eq_flatten_iff : ∀ {old : Str} {cs : List Str},
    appended old cs = cs.flatten ↔ (old :: cs).Pairwise fun a b => a.length ≤ b.length
  | old, [] => by simp [appended, overlays]
  | old, c :: cs => by
    have ih : appended c cs = cs.flatten ↔ (c :: cs).Pairwise fun a b => a.length ≤ b.length :=
      appended_eq_flatten_iff
    constructor
    · intro h
      have hlen := congrArg List.length h
      -- a shorter read leaves the end of a longer one, and the lengths show it
      have hrest := length_flatten_le_appended (recvInto c old) cs
      rw [appended_cons, List.flatten_cons, List.length_append, List.length_append,
        length_recvInto] at hlen
      have hle : old.length ≤ c.length := by omega
      rw [appended_cons, recvInto_of_le hle, List.flatten_cons, List.append_cancel_left_eq] at h
      have hchain := ih.mp h
      refine List.pairwise_cons.mpr ⟨fun x hx => ?_, hchain⟩
      rcases List.mem_cons.mp hx with rfl | hx
      · exact hle
      · exact Nat.le_trans hle ((List.pairwise_cons.mp hchain).1 x hx)
    · intro h
      obtain ⟨hold, hchain⟩ := List.pairwise_cons.mp h
      have hle : old.length ≤ c.length := hold c (List.mem_cons_self ..)
      rw [appended_cons, recvInto_of_le hle, ih.mpr hchain, List.flatten_cons]

/-- **Reassembly.** A turn that reads some chunks and stops at the last of them has
accumulated what they delivered if and only if no chunk is shorter than an
earlier one. -/
theorem reassembles_iff {chunks : List Str} (hstop : StopsAtLast [] chunks)
    (htotal : chunks.flatten.length < mb 15) :
    (readLoop [] [] [] (chunks.map .data)).1 = .frame chunks.flatten chunks.flatten ↔
      chunks.Pairwise fun a b => a.length ≤ b.length := by
  have hpair : chunks.Pairwise (fun a b => a.length ≤ b.length) ↔
      appended [] chunks = chunks.flatten := by
    rw [appended_eq_flatten_iff, List.pairwise_cons]
    simp
  rw [hpair]
  constructor
  · intro h
    have hread : readLoop [] [] [] (chunks.map .data)
        = (.frame chunks.flatten chunks.flatten, (readLoop [] [] [] (chunks.map .data)).2) :=
      Prod.ext h rfl
    obtain ⟨cs, hcs, -, happ, -, hstops⟩ := readLoop_inv hread
    obtain ⟨cs₁, cs₂, rfl, hcs₁, -⟩ := List.map_eq_append_iff.mp hcs
    obtain rfl : cs₁ = cs := List.map_injective_iff.mpr (fun _ _ => Read.data.inj) hcs₁
    -- the loop cannot have stopped before the last chunk
    obtain rfl : cs₂ = [] := hstop.append_unique hstops
    rw [List.append_nil] at happ ⊢
    exact happ.symm
  · intro h
    have hrun := readLoop_of_stops [] [] [] hstop
      (by rwa [List.nil_append, h])
    rw [List.append_nil] at hrun
    rw [hrun, List.nil_append, List.nil_append, h]

/-- With reads that only grow, a frame is put together as it was sent. -/
theorem reassembles_growing_reads :
    (readLoop [] [] [] [.data (lit "db,"), .data (lit "auth,<$#EOT#$>")]).1
      = .frame (lit "db,auth,<$#EOT#$>") (lit "db,auth,<$#EOT#$>") :=
  (@reassembles_iff [lit "db,", lit "auth,<$#EOT#$>"] (by decide) (by decide)).mpr (by decide)

/-- A second read that is shorter than the first leaves the end of the first in
`_buf`, and it is appended once more. -/
theorem not_reassembles :
    ¬ ∀ chunks : List Str, (∀ c ∈ chunks, 1 ≤ c.length ∧ c.length ≤ 7999) →
      StopsAtLast [] chunks → chunks.flatten.length < mb 15 →
      (readLoop [] [] [] (chunks.map .data)).1 = .frame chunks.flatten chunks.flatten :=
  fun h => absurd (h [lit "db,add,items,123456,1,2", lit "0,rice,<$#EOT#$>"]
    (by decide) (by decide) (by decide)) (by decide)

/-! ## Turns -/

/-- The bytes a client has delivered. -/
def received : List Read → Str
  | [] => []
  | .data c :: rs => c ++ received rs
  | _ :: rs => received rs

theorem received_append : ∀ rs rs' : List Read,
    received (rs ++ rs') = received rs ++ received rs'
  | [], _ => rfl
  | .data c :: rs, rs' => by simp [received, received_append rs rs']
  | .timeout :: rs, rs' => received_append rs rs'
  | .closed :: rs, rs' => received_append rs rs'

@[simp] theorem received_data : ∀ cs : List Str, received (cs.map .data) = cs.flatten
  | [] => rfl
  | c :: cs => by simp [received, received_data cs]

@[simp] theorem received_timeouts : ∀ k : Nat, received (List.replicate k .timeout) = []
  | 0 => rfl
  | k + 1 => received_timeouts k

/-- Reads that deliver nothing, on an open connection, are timeouts. -/
theorem eq_timeouts_of_received : ∀ {rs : List Read}, (∀ c, .data c ∈ rs → c ≠ []) →
    .closed ∉ rs → received rs = [] → ∃ k, rs = List.replicate k .timeout
  | [], _, _, _ => ⟨0, rfl⟩
  | .timeout :: rs, hne, hopen, h => by
    obtain ⟨k, rfl⟩ := eq_timeouts_of_received
      (fun c hc => hne c (List.mem_cons_of_mem _ hc)) (fun hc => hopen (List.mem_cons_of_mem _ hc)) h
    exact ⟨k + 1, rfl⟩
  | .closed :: rs, _, hopen, _ => absurd (List.mem_cons_self ..) hopen
  | .data c :: rs, hne, _, h =>
    absurd (List.append_eq_nil_iff.mp h).1 (hne c (List.mem_cons_self ..))

/-- A turn uses up a read, if there is one. -/
theorem length_readLoop : ∀ (rs : List Read) (bytes buf old : Str),
    (readLoop bytes buf old rs).2.length ≤ rs.length - 1
  | [], _, _, _ => Nat.le_refl _
  | .timeout :: _, _, _, _ => Nat.le_refl _
  | .closed :: _, _, _, _ => Nat.le_refl _
  | .data c :: rs, bytes, buf, old => by
    rw [readLoop]
    cases strcat (mb 15) buf (recvInto c old) with
    | none => exact Nat.le_refl _
    | some t =>
      by_cases hmark : strstr (recvInto c old) marker = true
      · simp [hmark]
      · have ih := length_readLoop rs (bytes ++ c) t (recvInto c old)
        simp only [hmark, if_false, List.length_cons, Bool.false_eq_true]
        omega

/-- More turns than reads change nothing. -/
theorem turns_of_le : ∀ {m n : Nat} {rs : List Read}, rs.length ≤ m → m ≤ n →
    turns n rs = turns m rs
  | 0, 0, _, _, _ => rfl
  | 0, n + 1, rs, h, _ => by
    obtain rfl : rs = [] := List.length_eq_zero_iff.mp (Nat.le_zero.mp h)
    rfl
  | m + 1, n + 1, rs, h, hmn => by
    have hrest := length_readLoop rs [] [] []
    have ih : turns n (readLoop [] [] [] rs).2 = turns m (readLoop [] [] [] rs).2 :=
      turns_of_le (by omega) (Nat.le_of_succ_le_succ hmn)
    rw [turns, turns]
    cases hloop : readLoop [] [] [] rs with
    | mk e rest =>
      rw [hloop] at ih
      cases e <;> simp [ih]

/-- The turns that are left serve the reads that a turn has left. -/
theorem turns_rest {r : Read} {rs rest : List Read} {e : LoopEnd}
    (h : readLoop [] [] [] (r :: rs) = (e, rest)) : turns rs.length rest = serve rest := by
  have hlen := length_readLoop (r :: rs) [] [] []
  rw [h, List.length_cons] at hlen
  exact turns_of_le (Nat.le_refl _) hlen

/-- The first turn, and the turns on the reads it leaves. -/
theorem serve_of_frame {rs rest : List Read} {b t : Str}
    (h : readLoop [] [] [] rs = (.frame b t, rest)) :
    serve rs = .call b (removeEscape t) :: serve rest := by
  cases rs with
  | nil => cases h
  | cons r rs =>
    rw [serve, List.length_cons, turns, h]
    exact congrArg _ (turns_rest h)

theorem serve_of_timeout {rs rest : List Read} {b : Str}
    (h : readLoop [] [] [] rs = (.timeout b, rest)) :
    serve rs = .timeout b :: serve rest := by
  cases rs with
  | nil => cases h
  | cons r rs =>
    rw [serve, List.length_cons, turns, h]
    exact congrArg _ (turns_rest h)

theorem serve_timeout (rs : List Read) : serve (.timeout :: rs) = .timeout [] :: serve rs :=
  have h : readLoop [] [] [] (.timeout :: rs) = (.timeout [], rs) := rfl
  serve_of_timeout h

theorem serve_timeouts : ∀ (k : Nat) (rs : List Read),
    serve (List.replicate k .timeout ++ rs) = List.replicate k (.timeout []) ++ serve rs
  | 0, _ => rfl
  | k + 1, rs => by
    rw [List.replicate_succ, List.replicate_succ, List.cons_append, List.cons_append,
      serve_timeout, serve_timeouts k rs]

/-- The calls among the turns: the bytes a call was made for, and its command. -/
def calls (ts : List Turn) : List (Str × Str) :=
  ts.filterMap fun
    | .call bytes cmd => some (bytes, cmd)
    | _ => none

theorem calls_timeouts : ∀ (k : Nat) (ts : List Turn),
    calls (List.replicate k (.timeout []) ++ ts) = calls ts
  | 0, _ => rfl
  | k + 1, ts => calls_timeouts k ts

/-- A call is not made for more bytes than have been delivered. -/
theorem length_le_of_mem_calls : ∀ {n : Nat} {rs : List Read} {b cmd : Str},
    (b, cmd) ∈ calls (turns n rs) → b.length ≤ (received rs).length
  | 0, _, _, _, h => (nomatch h)
  | n + 1, rs, b, cmd, h => by
    rw [turns] at h
    cases hloop : readLoop [] [] [] rs with
    | mk e rest =>
      rw [hloop] at h
      have hinv := readLoop_inv hloop
      cases e with
      | frame b' t =>
        obtain ⟨cs, rfl, rfl, -, -, -⟩ := hinv
        rw [received_append, received_data, List.length_append]
        have hmem : (b, cmd) = (cs.flatten, removeEscape t) ∨ (b, cmd) ∈ calls (turns n rest) := by
          simpa [calls] using h
        rcases hmem with heq | hmem
        · rw [(Prod.mk.inj heq).1]
          exact Nat.le_add_right _ _
        · exact Nat.le_trans (length_le_of_mem_calls hmem) (Nat.le_add_left _ _)
      | timeout b' =>
        obtain ⟨cs, rfl, -⟩ := hinv
        have hmem : (b, cmd) ∈ calls (turns n rest) := by simpa [calls] using h
        rw [received_append, List.length_append]
        exact Nat.le_trans (length_le_of_mem_calls hmem) (Nat.le_add_left _ _)
      | closed b' => simp [calls] at h
      | overflow => simp [calls] at h
      | waiting => simp [calls] at h

/-! ## The marker and old bytes -/

theorem length_marker : marker.length = 9 := by decide

/-- No end of the marker is a beginning of it. -/
theorem marker_no_border : ∀ k < 9, 0 < k → marker.take k ≠ marker.drop (9 - k) := by decide

/-- A read that holds only the end of the marker does not make it whole, whatever
stands behind it in `_buf`. -/
theorem not_marker_of_short {l old : Str} (hsuf : l <:+ marker) (hlen : l.length < 9)
    (hold : ¬ marker <:+: old) : ¬ marker <:+: recvInto l old := by
  rintro ⟨a, b, hab⟩
  have hdrop : old.drop l.length <:+: old := (List.drop_suffix _ _).isInfix
  rw [recvInto, List.append_assoc] at hab
  rcases List.append_eq_append_iff.mp hab with ⟨l', hl, hm⟩ | ⟨a', -, hm⟩
  · by_cases hl' : l' = []
    · subst hl'
      exact hold ((List.IsPrefix.isInfix ⟨b, hm⟩).trans hdrop)
    -- the occurrence begins inside the read: what it has of it is a border
    have hk : l'.length < 9 := by
      rw [hl, List.length_append] at hlen
      omega
    have hpre : l' <+: marker :=
      List.prefix_of_prefix_length_le ⟨_, hm.symm⟩ (List.prefix_append marker b)
        (by rw [length_marker]; omega)
    have hsuf' : l' <:+ marker := (hl ▸ List.suffix_append a l').trans hsuf
    have htake := List.prefix_iff_eq_take.mp hpre
    have hdrop' := List.suffix_iff_eq_drop.mp hsuf'
    rw [length_marker] at hdrop'
    exact marker_no_border l'.length hk (List.length_pos_iff.mpr hl') (htake.symm.trans hdrop')
  · refine hold (List.IsInfix.trans ⟨a', b, ?_⟩ hdrop)
    rw [hm, List.append_assoc]

/-- Where a text that ends with the marker is cut for the last time: the marker
shows up at the last read, and not before, exactly when that read has room for it
and no earlier one completed a marker with old bytes. -/
theorem stopsAtLast_iff : ∀ {init : List Str} {old l : Str}, strstr old marker = false →
    (marker <:+ l ∨ l <:+ marker) →
    (StopsAtLast old (init ++ [l]) ↔
      9 ≤ l.length ∧ ∀ o ∈ overlays old init, strstr o marker = false)
  | [], old, l, hold, hcut => by
    have hstop : StopsAtLast old ([] ++ [l]) ↔ marker <:+: recvInto l old := strstr_iff
    rw [hstop]
    constructor
    · intro hmark
      refine ⟨?_, by simp [overlays]⟩
      rcases hcut with hcut | hcut
      · exact length_marker ▸ hcut.length_le
      · by_contra hlen
        exact not_marker_of_short hcut (Nat.lt_of_not_le hlen) (strstr_eq_false.mp hold) hmark
    · rintro ⟨hlen, -⟩
      have hsuf : marker <:+ l := by
        rcases hcut with hcut | hcut
        · exact hcut
        · rw [hcut.eq_of_length_le (length_marker ▸ hlen)]
      exact hsuf.isInfix.trans (List.prefix_append l _).isInfix
  | c :: init, old, l, _, hcut => by
    rw [List.cons_append, stopsAtLast_cons (by simp), overlays, List.forall_mem_cons]
    constructor
    · rintro ⟨hc, hrest⟩
      obtain ⟨hlen, hall⟩ := (stopsAtLast_iff hc hcut).mp hrest
      exact ⟨hlen, hc, hall⟩
    · rintro ⟨hlen, hc, hall⟩
      exact ⟨hc, (stopsAtLast_iff hc hcut).mpr ⟨hlen, hall⟩⟩

/-! ## Detection -/

/-- The reads of one frame, with timeouts only before and after them: the last is
long enough to hold the marker, no earlier one completes a marker with bytes
that were in `_buf` before it, and what is appended to `buf` fits. -/
def Undisturbed (reads : List Read) : Prop :=
  ∃ (j k : Nat) (init : List Str) (last : Str),
    reads = List.replicate j .timeout ++ ((init ++ [last]).map .data ++ List.replicate k .timeout) ∧
    9 ≤ last.length ∧ (∀ o ∈ overlays [] init, strstr o marker = false) ∧
    (appended [] (init ++ [last])).length < mb 15

/-- How the last read cuts a text that ends with the marker. -/
theorem marker_cut {body pre l : Str} (h : pre ++ l = body ++ marker) :
    marker <:+ l ∨ l <:+ marker :=
  List.suffix_or_suffix_of_suffix (h ▸ List.suffix_append body marker) (List.suffix_append pre l)

theorem detects_of_undisturbed {reads : List Read} {body : Str}
    (hframe : received reads = body ++ marker) (h : Undisturbed reads) :
    ∃ cmd, calls (serve reads) = [(body ++ marker, cmd)] := by
  obtain ⟨j, k, init, last, rfl, hlen, hall, hfit⟩ := h
  rw [received_append, received_timeouts, received_append, received_data, received_timeouts,
    List.nil_append, List.append_nil] at hframe
  have hcut : marker <:+ last ∨ last <:+ marker :=
    marker_cut (show init.flatten ++ last = body ++ marker by simpa using hframe)
  have hstop : StopsAtLast [] (init ++ [last]) :=
    (stopsAtLast_iff (by decide) hcut).mpr ⟨hlen, hall⟩
  have hloop := readLoop_of_stops [] [] (List.replicate k .timeout) hstop
    (by simpa using hfit)
  rw [List.nil_append, List.nil_append, hframe] at hloop
  refine ⟨removeEscape (appended [] (init ++ [last])), ?_⟩
  rw [serve_timeouts, calls_timeouts, serve_of_frame hloop]
  have hrest : calls (serve (List.replicate k .timeout)) = [] := by
    have h := serve_timeouts k []
    rw [List.append_nil] at h
    rw [h, calls_timeouts]
    rfl
  exact congrArg _ hrest

theorem undisturbed_of_detects : ∀ {reads : List Read} {body cmd : Str},
    (∀ c, .data c ∈ reads → c ≠ []) → .closed ∉ reads → received reads = body ++ marker →
    calls (serve reads) = [(body ++ marker, cmd)] → Undisturbed reads
  | [], _, _, _, _, _, h => (nomatch h)
  | .closed :: _, _, _, _, hopen, _, _ => absurd (List.mem_cons_self ..) hopen
  | .timeout :: rs, body, cmd, hne, hopen, hframe, h => by
    rw [serve_timeout] at h
    obtain ⟨j, k, init, last, rfl, hrest⟩ := undisturbed_of_detects
      (fun c hc => hne c (List.mem_cons_of_mem _ hc))
      (fun hc => hopen (List.mem_cons_of_mem _ hc)) hframe h
    exact ⟨j + 1, k, init, last, rfl, hrest⟩
  | .data c :: rs, body, cmd, hne, hopen, hframe, h => by
    cases hloop : readLoop [] [] [] (.data c :: rs) with
    | mk e rest =>
      have hinv := readLoop_inv hloop
      cases e with
      | frame b t =>
        obtain ⟨cs, hcs, rfl, rfl, hfit, hstop⟩ := hinv
        rw [serve_of_frame hloop] at h
        have hb : cs.flatten = body ++ marker := (Prod.mk.inj (List.cons.inj h).1).1
        -- the call took everything, so only timeouts are left
        have hrest : received rest = [] := by
          rw [hcs, received_append, received_data, hb] at hframe
          exact List.append_right_eq_self.mp hframe
        obtain ⟨k, rfl⟩ := eq_timeouts_of_received
          (fun c' hc' => hne c' (hcs ▸ List.mem_append_right _ hc'))
          (fun hc' => hopen (hcs ▸ List.mem_append_right _ hc')) hrest
        obtain ⟨init, last, rfl⟩ : ∃ init last, cs = init ++ [last] :=
          ⟨_, _, (List.dropLast_append_getLast hstop.ne_nil).symm⟩
        have hcut : marker <:+ last ∨ last <:+ marker :=
          marker_cut (show init.flatten ++ last = body ++ marker by simpa using hb)
        obtain ⟨hlen, hall⟩ := (stopsAtLast_iff (by decide) hcut).mp hstop
        exact ⟨0, k, init, last, hcs, hlen, hall, by simpa using hfit⟩
      | timeout b =>
        obtain ⟨cs, hcs, rfl⟩ := hinv
        rw [serve_of_timeout hloop] at h
        have hmem : (body ++ marker, cmd) ∈ calls (serve rest) := by
          have : calls (serve rest) = [(body ++ marker, cmd)] := h
          rw [this]
          exact List.mem_singleton.mpr rfl
        -- the bytes that went with the timeout are missing
        have hle := length_le_of_mem_calls hmem
        rw [← hframe, hcs, received_append, received_data, List.length_append] at hle
        cases cs with
        | nil => cases hcs
        | cons c' cs =>
          have hc' : c' ≠ [] := hne c' (hcs ▸ List.mem_cons_self ..)
          have hpos := List.length_pos_iff.mpr hc'
          have hrest : received (.timeout :: rest) = received rest := rfl
          rw [List.flatten_cons, List.length_append, hrest] at hle
          omega
      | closed b =>
        obtain ⟨cs, hcs, -⟩ := hinv
        exact absurd (hcs ▸ List.mem_append_right _ (List.mem_cons_self ..)) hopen
      | overflow =>
        rw [serve, List.length_cons, turns, hloop] at h
        cases h
      | waiting =>
        rw [serve, List.length_cons, turns, hloop] at h
        cases h

/-- **Detection.** A frame, cut into reads of at least one byte with timeouts
anywhere, leads to exactly one call, made when all of it and nothing else has
been read, if and only if its reads are undisturbed. -/
theorem detects_iff {reads : List Read} {body : Str} (hne : ∀ c, .data c ∈ reads → c ≠ [])
    (hopen : .closed ∉ reads) (hframe : received reads = body ++ marker) :
    (∃ cmd, calls (serve reads) = [(body ++ marker, cmd)]) ↔ Undisturbed reads :=
  ⟨fun ⟨_, h⟩ => undisturbed_of_detects hne hopen hframe h, detects_of_undisturbed hframe⟩

/-- A frame in two reads, the second of which holds the whole marker. -/
theorem detects_two_reads :
    ∃ cmd, calls (serve [.timeout, .data (lit "db,get-list,"), .data (lit "items,<$#EOT#$>")]) =
      [(lit "db,get-list,items," ++ marker, cmd)] :=
  (detects_iff (by simp [lit]) (by simp) (by decide)).mpr
    ⟨1, 0, [lit "db,get-list,"], lit "items,<$#EOT#$>", rfl, by decide, by decide, by decide⟩

/-- A marker that is cut in two is never seen. -/
theorem not_detects :
    ¬ ∀ (reads : List Read) (body : Str), ¬ marker <:+: body →
      (∀ c, .data c ∈ reads → 1 ≤ c.length ∧ c.length ≤ 7999) → .closed ∉ reads →
      received reads = body ++ marker →
      ∃ cmd, calls (serve reads) = [(body ++ marker, cmd)] := by
  intro h
  obtain ⟨cmd, hcmd⟩ := h [.data (lit "auth,<$#E"), .data (lit "OT#$>")] (lit "auth,")
    (by decide) (by simp [lit]) (by simp) (by decide)
  have hnone : calls (serve [.data (lit "auth,<$#E"), .data (lit "OT#$>")]) = [] := by decide
  rw [hnone] at hcmd
  cases hcmd

/-! ## Frames sent without waiting -/

/-- A command frame as a client writes it. -/
structure Frame where
  text : Str
  ends : comma ++ marker <:+ text
  no_escape : ∀ c ∈ text, c ≠ '\n' ∧ c ≠ '\r'
  no_bye : ¬ lit "bye" <:+: text

/-- The text of some frames in a row. -/
def joined (fs : List Frame) : Str := (fs.map Frame.text).flatten

/-- The loop takes a turn for the client: `process_state` and `is_connected` are as they
have to be. -/
def World.Serves (w : World) : Prop := w.srv.state = stateRun ∧ w.sess.isConnected = true

instance (w : World) : Decidable w.Serves := inferInstanceAs (Decidable (_ ∧ _))

/-- The commands `rpc_call` is given in some turns, the next of them turn `k`. `others k` is
what the other clients and threads do until the loop comes to the client again. A crash is
the end of the thread. -/
def handedIn (y : Sys) (others : Nat → World → World) : List Turn → Nat → World → List Str
  | [], _, _ => []
  | turn :: rest, k, w =>
    if w.Serves then
      match turn with
      | .call _ cmd =>
        cmd :: match ((processCmd y cmd).run w).val with
          | .ok _ => handedIn y others rest (k + 1) (others k ((processCmd y cmd).run w).state)
          | .error _ => []
      | .timeout _ => handedIn y others rest (k + 1) (others k w)
      -- `is_connected` is cleared, or `buf` has overflowed
      | .closed _ | .overflow => []
    else []

/-- The commands `rpc_call` is given, from the world in which the loop first comes to the
client. -/
def handed (y : Sys) (others : Nat → World → World) (w : World) (reads : List Read) : List Str :=
  handedIn y others (serve reads) 0 w

/-- The client is served until the last of some commands is handed on: in front of each the
server runs and the session is connected, and none but the last crashes. -/
def KeepsServing (y : Sys) (others : Nat → World → World) : List Str → Nat → World → Prop
  | [], _, _ => True
  | cmd :: rest, k, w =>
    w.Serves ∧ (rest ≠ [] → ((processCmd y cmd).run w).val.isOk = true ∧
      KeepsServing y others rest (k + 1) (others k ((processCmd y cmd).run w).state))

section

variable {y : Sys} {others : Nat → World → World}

/-- One command at a turn. -/
def callTurns (cmds : List Str) : List Turn := cmds.map fun cmd => .call cmd cmd

theorem handedIn_start (cmds : List Str) (k : Nat) (w : World) :
    handedIn y others (callTurns cmds) k w <+: cmds := by
  induction cmds generalizing k w with
  | nil => exact List.nil_prefix
  | cons cmd rest ih =>
    rw [callTurns, List.map_cons, handedIn]
    split
    · rw [List.cons_prefix_cons]
      refine ⟨rfl, ?_⟩
      split
      · exact ih _ _
      · exact List.nil_prefix
    · exact List.nil_prefix

/-- All of the commands are handed on exactly when the client is served that long. -/
theorem handedIn_eq_iff (cmds : List Str) (k : Nat) (w : World) :
    handedIn y others (callTurns cmds) k w = cmds ↔ KeepsServing y others cmds k w := by
  induction cmds generalizing k w with
  | nil => exact ⟨fun _ => trivial, fun _ => rfl⟩
  | cons cmd rest ih =>
    rw [callTurns, List.map_cons, handedIn, KeepsServing]
    by_cases hserves : w.Serves
    · rw [if_pos hserves, List.cons_inj_right]
      cases hval : ((processCmd y cmd).run w).val with
      | ok u =>
        refine (ih _ _).trans ⟨fun h => ⟨hserves, fun _ => ⟨rfl, h⟩⟩, fun h => ?_⟩
        cases rest with
        | nil => exact trivial
        | cons cmd' rest => exact (h.2 (List.cons_ne_nil _ _)).2
      | error c =>
        constructor
        · intro h
          exact ⟨hserves, fun hrest => absurd h.symm hrest⟩
        · intro h
          by_contra hrest
          exact Bool.false_ne_true (h.2 (Ne.symm hrest)).1
    · rw [if_neg hserves]
      exact ⟨fun h => (nomatch h), fun h => absurd h.1 hserves⟩

end

theorem removeEscape_of_forall {s : Str} (h : ∀ c ∈ s, c ≠ '\n' ∧ c ≠ '\r') :
    removeEscape s = s :=
  List.takeWhile_eq_self_iff.mpr fun c hc => by simp [h c hc]

theorem joined_no_escape {fs : List Frame} : ∀ c ∈ joined fs, c ≠ '\n' ∧ c ≠ '\r' := by
  intro c hc
  obtain ⟨t, ht, hct⟩ := List.mem_flatten.mp hc
  obtain ⟨f, -, rfl⟩ := List.mem_map.mp ht
  exact f.no_escape c hct

theorem Frame.marker_infix (f : Frame) : marker <:+: f.text :=
  (List.suffix_append comma marker).isInfix.trans f.ends.isInfix

theorem marker_infix_joined {fs : List Frame} (h : fs ≠ []) : marker <:+: joined fs := by
  cases fs with
  | nil => exact absurd rfl h
  | cons f fs => exact f.marker_infix.trans (List.prefix_append f.text (joined fs)).isInfix

/-- The reads of frames that arrive in groups. -/
def groupReads (groups : List (List Frame)) : List Read :=
  groups.map fun g => .data (joined g)

/-- Each read of whole frames is a turn: its text is handed on as one command. -/
theorem serve_groups : ∀ {groups : List (List Frame)},
    (∀ g ∈ groups, g ≠ [] ∧ (joined g).length ≤ 7999) →
    serve (groupReads groups) = callTurns (groups.map joined)
  | [], _ => rfl
  | g :: groups, h => by
    obtain ⟨hne, hlen⟩ := h g (List.mem_cons_self ..)
    have hover : recvInto (joined g) [] = joined g := recvInto_of_le (Nat.zero_le _)
    have hstop : StopsAtLast [] [joined g] := by
      show strstr (recvInto (joined g) []) marker = true
      rw [hover]
      exact strstr_iff.mpr (marker_infix_joined hne)
    have happ : appended [] [joined g] = joined g := by simp [appended, overlays, hover]
    have hloop := readLoop_of_stops [] [] (groupReads groups) hstop
      (by rw [happ, List.nil_append]; exact Nat.lt_of_le_of_lt hlen (by decide))
    have hserve := serve_of_frame hloop
    rw [List.nil_append, List.nil_append, happ, removeEscape_of_forall joined_no_escape,
      List.flatten_singleton] at hserve
    have ih := serve_groups fun g' hg' => h g' (List.mem_cons_of_mem _ hg')
    rw [ih] at hserve
    exact hserve

/-- The branch of `__process_cmd` that dispatches a frame on its first field. -/
def dispatchFrame (y : Sys) (cmd : Str) : M Unit := do
  let verb ← strtokFirst cmd comma
  dispatch y (findCmd verb)

theorem Frame.processCmd_eq (y : Sys) (f : Frame) :
    processCmd y f.text = dispatchFrame y f.text := by
  have hcomma : comma <:+: f.text :=
    (List.prefix_append comma marker).isInfix.trans f.ends.isInfix
  unfold processCmd
  rw [if_neg (by simpa using f.no_bye), if_pos ⟨by simpa using f.marker_infix, by simpa using hcomma⟩]
  rfl

theorem sum_lengths_ge : ∀ {groups : List (List Frame)}, (∀ g ∈ groups, g ≠ []) →
    groups.length ≤ groups.flatten.length
  | [], _ => Nat.le_refl _
  | g :: groups, h => by
    have ih := sum_lengths_ge fun g' hg' => h g' (List.mem_cons_of_mem _ hg')
    have hpos := List.length_pos_iff.mpr (h g (List.mem_cons_self ..))
    rw [List.length_cons, List.flatten_cons, List.length_append]
    omega

/-- As many groups as frames: each group is one frame. -/
theorem singletons_of_length : ∀ {groups : List (List Frame)}, (∀ g ∈ groups, g ≠ []) →
    groups.length = groups.flatten.length → ∀ g ∈ groups, g.length = 1
  | [], _, _, g, hg => (nomatch hg)
  | g :: groups, h, hlen, g', hg' => by
    have hrest : ∀ x ∈ groups, x ≠ [] := fun x hx => h x (List.mem_cons_of_mem _ hx)
    have hge := sum_lengths_ge hrest
    have hpos := List.length_pos_iff.mpr (h g (List.mem_cons_self ..))
    rw [List.length_cons, List.flatten_cons, List.length_append] at hlen
    rcases List.mem_cons.mp hg' with rfl | hg'
    · omega
    · exact singletons_of_length hrest (by omega) g' hg'

theorem map_joined_of_singletons : ∀ {groups : List (List Frame)},
    (∀ g ∈ groups, g.length = 1) → groups.map joined = groups.flatten.map Frame.text
  | [], _ => rfl
  | g :: groups, h => by
    obtain ⟨f, rfl⟩ := List.length_eq_one_iff.mp (h g (List.mem_cons_self ..))
    have ih := map_joined_of_singletons fun g' hg' => h g' (List.mem_cons_of_mem _ hg')
    rw [List.map_cons, ih, List.flatten_cons, List.map_append]
    simp [joined]

/-- **Lock step.** Frames that arrive in groups, each group in one read, are all
handed on once and in order if and only if every read holds a single frame and the client
is served until the last; and a frame handed on alone goes to the dispatcher. -/
theorem handed_iff (y : Sys) (others : Nat → World → World) (w : World)
    {groups : List (List Frame)} (h : ∀ g ∈ groups, g ≠ [] ∧ (joined g).length ≤ 7999) :
    (handed y others w (groupReads groups) = groups.flatten.map Frame.text ↔
      (∀ g ∈ groups, g.length = 1) ∧
        KeepsServing y others (groups.flatten.map Frame.text) 0 w) ∧
      ∀ f ∈ groups.flatten, processCmd y f.text = dispatchFrame y f.text := by
  rw [handed, serve_groups h]
  refine ⟨⟨fun heq => ?_, fun ⟨hone, hserved⟩ => ?_⟩, fun f _ => f.processCmd_eq y⟩
  · -- no more commands are handed on than there are reads
    have hle := (@handedIn_start y others (groups.map joined) 0 w).length_le
    rw [heq, List.length_map, List.length_map] at hle
    have hge := sum_lengths_ge fun g hg => (h g hg).1
    have hone := singletons_of_length (fun g hg => (h g hg).1) (by omega)
    rw [map_joined_of_singletons hone] at heq
    exact ⟨hone, (handedIn_eq_iff _ _ _).mp heq⟩
  · rw [map_joined_of_singletons hone]
    exact (handedIn_eq_iff _ _ _).mpr hserved

/-- `db,add,items,1,2,3,tea,<$#EOT#$>` -/
def addFrame : Frame where
  text := lit "db,add,items,1,2,3,tea,<$#EOT#$>"
  ends := ⟨lit "db,add,items,1,2,3,tea", rfl⟩
  no_escape := by decide
  no_bye := by decide

/-- `db,get-list,items,<$#EOT#$>` -/
def listFrame : Frame where
  text := lit "db,get-list,items,<$#EOT#$>"
  ends := ⟨lit "db,get-list,items", rfl⟩
  no_escape := by decide
  no_bye := by decide

/-- A session of `ROOT_USR` that is served alone. -/
def aloneWorld : World := .before { initDataRoot with isConnected := true } (fun _ => ⟨[], 1⟩)

theorem keepsServing_alone :
    KeepsServing quietSys (fun _ w => w) [addFrame.text, listFrame.text] 0 aloneWorld :=
  ⟨⟨rfl, rfl⟩, fun _ => ⟨by decide +kernel, by decide +kernel, fun h => absurd rfl h⟩⟩

/-- Two frames, each in a read of its own. -/
theorem handed_two_reads :
    handed quietSys (fun _ w => w) aloneWorld (groupReads [[addFrame], [listFrame]]) =
      [addFrame.text, listFrame.text] :=
  (@handed_iff quietSys (fun _ w => w) aloneWorld [[addFrame], [listFrame]] (by decide)).1.mpr
    ⟨by decide, keepsServing_alone⟩

/-- Two frames in one read are one command. -/
theorem not_handed :
    ¬ ∀ (y : Sys) (others : Nat → World → World) (w : World) (groups : List (List Frame)),
      (∀ g ∈ groups, g ≠ [] ∧ (joined g).length ≤ 7999) →
      KeepsServing y others (groups.flatten.map Frame.text) 0 w →
      handed y others w (groupReads groups) = groups.flatten.map Frame.text := by
  intro h
  have heq := h quietSys (fun _ w => w) aloneWorld [[addFrame, listFrame]] (by decide)
    keepsServing_alone
  have hlen := congrArg List.length heq
  rw [handed, serve_groups (by decide)] at hlen
  have hle := (@handedIn_start quietSys (fun _ w => w)
    ([[addFrame, listFrame]].map joined) 0 aloneWorld).length_le
  rw [hlen] at hle
  exact absurd hle (by decide)

end Thor
