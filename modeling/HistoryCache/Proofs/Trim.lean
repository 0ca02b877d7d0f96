import HistoryCache.Proofs.Ends
import HistoryCache.Proofs.Search
import Mathlib.Data.List.TakeWhile

/-!
# Trimming

A trim lets go of whole chunks from the oldest end.  A chunk may end within a second, and then the
next chunk gives up the rest of that second first, so that what goes is a prefix of the history in
whole seconds (`Tidy.trim`).  The loop stops before a chunk of which nothing would be left, so the
newest second stays.
-/

namespace HistoryCache

namespace History

/-- Records leave a chunk as long as they are of a second. -/
theorem Kept.popSecond {h : History} (js : List Nat) {ks : List Nat} {i : Nat} {c : Chunk}
    (hk : h.Kept (js ++ i :: ks)) (hc : h.chunk? i = some c) (sec : Int) {n : Nat}
    (hn : c.records.length ≤ n) :
    ∃ gone g d, h.popSecond sec i n = (gone, g) ∧
      gone.records = c.records.takeWhile (fun r => decide (r.sec = sec)) ∧
      g.Kept (js ++ i :: ks) ∧ g.chunk? i = some d ∧
      d.records = c.records.dropWhile (fun r => decide (r.sec = sec)) ∧
      d.stop = c.stop ∧ d.capacity = c.capacity ∧ (∀ j, i ≠ j → g.chunk? j = h.chunk? j) := by
  induction n generalizing h c with
  | zero =>
    have hnil := List.length_eq_zero_iff.1 (Nat.le_zero.1 hn)
    exact ⟨{}, h, c, rfl, by rw [hnil]; rfl, hk, hc, by rw [hnil]; rfl, rfl, rfl, fun _ _ => rfl⟩
  | succ n ih =>
    rw [History.popSecond, hc, Option.bind_some, (hk.exact hc).oldest?_eq]
    cases hrs : c.records with
    | nil => exact ⟨{}, h, c, rfl, rfl, hk, hc, hrs, rfl, rfl, fun _ _ => rfl⟩
    | cons r rs =>
      rw [List.head?_cons]
      simp only []
      split
      · next hsec =>
        obtain ⟨-, hexact, hpopped⟩ := (hk.exact hc).popOldest hrs
        obtain ⟨gone, g, hg, hgone, hgk, hgc, hother, -⟩ := hk.popFrom js hc hrs
        obtain ⟨rest, g', d, hg', hrest, hgk', hgd, hd, hstop, hcap, hother'⟩ := ih hgk hgc (by
          rw [hpopped]
          rw [hrs, List.length_cons] at hn
          omega)
        refine ⟨gone ++ rest, g', d, by rw [hg, hg'], ?_, hgk', hgd, ?_, ?_, ?_, fun j hij => ?_⟩
        · rw [Released.records_append, hgone, hrest, hpopped,
            List.takeWhile_cons_of_pos (by simpa using hsec)]
          rfl
        · rw [hd, hpopped, List.dropWhile_cons_of_pos (by simpa using hsec)]
        · rw [hstop, Chunk.Exact.stop_popOldest]
        · rw [hcap, Chunk.Exact.capacity_popOldest]
        · rw [hother' j hij, hother j hij]
      · next hsec =>
        refine ⟨{}, h, c, rfl, ?_, hk, hc, ?_, rfl, rfl, fun _ _ => rfl⟩
        · rw [List.takeWhile_cons_of_neg (by simpa using hsec)]
          rfl
        · rw [hrs, List.dropWhile_cons_of_neg (by simpa using hsec)]

/-- What a round of a trim leaves: the oldest chunk is gone, and the next one has lost what it held
of the last second of that chunk. -/
theorem Tidy.dropChunk {h : History} (ht : h.Tidy) {i j : Nat} {ks : List Nat} {c d : Chunk}
    (his : h.chunks.forth = i :: j :: ks) (hc : h.chunk? i = some c) (hd : h.chunk? j = some d)
    {sec : Int} (hleft : d.records.dropWhile (fun r => decide (r.sec = sec)) ≠ []) {n : Nat}
    (hn : d.records.length ≤ n) :
    ∃ split g gone g', h.popSecond sec j n = (split, g) ∧ g.removeChunk i = (gone, g') ∧
      split.records = d.records.takeWhile (fun r => decide (r.sec = sec)) ∧
      gone.records = c.records ∧ g'.Tidy ∧
      g'.records = d.records.dropWhile (fun r => decide (r.sec = sec)) ++
        ks.flatMap h.recordsAt := by
  have hk := ht.kept
  rw [his] at hk
  have hij : j ≠ i := by
    rintro rfl
    exact (List.nodup_cons.1 hk.linked.nodup).1 List.mem_cons_self
  obtain ⟨split, g, e, hpop, hsplit, hgk, hge, herecords, hstop, hcap, hother⟩ :=
    hk.popSecond [i] hd sec hn
  obtain ⟨g', hremove, hgk', hget, hgrecords⟩ :=
    hgk.removeChunk [] (i := i) (c := c) (by rw [hother i hij, hc])
  have hchunk : ∀ k ∈ ks, g'.chunk? k = h.chunk? k := by
    intro k hkmem
    have hnodup := hk.linked.nodup
    rw [List.nodup_cons, List.mem_cons, not_or, List.nodup_cons] at hnodup
    rw [hget, if_neg, hother k]
    · rintro rfl
      exact hnodup.2.1 hkmem
    · rintro rfl
      exact hnodup.1.2 hkmem
  have hself : g'.chunk? j = some e := by rw [hget, if_neg hij.symm, hge]
  have hloose := ht.loose
  rw [his] at hloose
  have hloose' : g'.Loose (j :: ks) := by
    refine (hloose.upper.tail.congr hchunk).loose hgk' fun hne b hb => ?_
    rw [hself] at hb
    cases hb
    rw [hstop, hcap]
    refine hloose.upper.high j ?_ d hd
    rw [List.dropLast_cons_of_ne_nil hne]
    exact List.mem_cons_self
  refine ⟨split, g, _, g', hpop, hremove, hsplit, (ht.exact hc).contents_eq,
    hloose'.tidy fun k b hk' hb => ?_, ?_⟩
  · cases hk'
    rw [hself] at hb
    cases hb
    rw [herecords]
    exact hleft
  · have hrecords := hgk'.records_split [] hself
    rw [hrecords, herecords, flatMap_recordsAt_congr hchunk]
    rfl

/-- The records after the second in which a chunk ends, if the next chunk goes on. -/
theorem filter_after {rs ds ts : List Record} {last : Record}
    (ho : InOrder (rs ++ (ds ++ ts))) (hlast : rs.getLast? = some last)
    (hleft : ds.dropWhile (fun r => decide (r.sec = last.sec)) ≠ []) :
    (rs ++ (ds ++ ts)).filter (fun r => decide (last.sec < r.sec)) =
      ds.dropWhile (fun r => decide (r.sec = last.sec)) ++ ts := by
  obtain ⟨hrs, hdts, hcross⟩ := List.pairwise_append.1 ho
  obtain ⟨hds, -, hdt⟩ := List.pairwise_append.1 hdts
  have hmem := List.mem_of_getLast? hlast
  have hfirst : rs.filter (fun r => decide (last.sec < r.sec)) = [] := by
    rw [List.filter_eq_nil_iff]
    intro r hr
    rw [decide_eq_true_iff, Int.not_lt]
    exact Record.sec_le_of_le (InOrder.le_last hrs hlast r hr)
  have hge : ∀ r ∈ ds, last.sec ≤ r.sec := fun r hr =>
    Record.sec_le_of_le (hcross last hmem r (List.mem_append_left ts hr))
  have hmono : ds.Pairwise fun a b => decide (b.sec = last.sec) → decide (a.sec = last.sec) := by
    refine hds.imp_of_mem fun {a b} ha _ hab hb => ?_
    rw [decide_eq_true_iff] at hb ⊢
    have h1 := Record.sec_le_of_le hab
    have h2 := hge a ha
    omega
  have hmiddle : ds.filter (fun r => decide (last.sec < r.sec)) =
      ds.dropWhile (fun r => decide (r.sec = last.sec)) := by
    rw [dropWhile_eq_filter_of_pairwise hmono]
    refine List.filter_congr fun r hr => ?_
    have := hge r hr
    rw [← decide_not, decide_eq_decide]
    omega
  have hrest : ts.filter (fun r => decide (last.sec < r.sec)) = ts := by
    rw [List.filter_eq_self]
    intro r hr
    rw [← hmiddle] at hleft
    obtain ⟨d, hd⟩ := List.exists_mem_of_ne_nil _ hleft
    rw [List.mem_filter, decide_eq_true_iff] at hd
    have := Record.sec_le_of_le (hdt d hd.1 r hr)
    rw [decide_eq_true_iff]
    omega
  rw [List.filter_append, List.filter_append, hfirst, hmiddle, hrest, List.nil_append]

/-- A history that was trimmed before a boundary: some records are left, those after the last second
that was dropped. -/
structure Trimmed (h : History) (boundary sec : Int) (gone : Released) (g : History) : Prop where
  tidy : g.Tidy
  before : sec < boundary
  dropped : ∃ r ∈ h.records, r.sec = sec
  left : g.records ≠ []
  records : g.records = h.records.filter fun r => decide (sec < r.sec)
  perm : (gone.records ++ g.records).Perm h.records

theorem Trimmed.trans {h g g' : History} {boundary sec sec' : Int} {gone gone' : Released}
    (hg : h.Trimmed boundary sec gone g) (hg' : g.Trimmed boundary sec' gone' g') :
    h.Trimmed boundary sec' (gone ++ gone') g' := by
  obtain ⟨r, hr, hrsec⟩ := hg'.dropped
  rw [hg.records, List.mem_filter, decide_eq_true_iff] at hr
  refine ⟨hg'.tidy, hg'.before, ⟨r, hr.1, hrsec⟩, hg'.left, ?_, ?_⟩
  · rw [hg'.records, hg.records, List.filter_filter]
    refine List.filter_congr fun x _ => ?_
    rw [← Bool.decide_and, decide_eq_decide]
    omega
  · rw [Released.records_append, List.append_assoc]
    exact (hg'.perm.append_left _).trans hg.perm

/-- A round of a trim drops the seconds up to the one in which the oldest chunk ends. -/
theorem Tidy.trimmed_round {h : History} (ht : h.Tidy) (ho : InOrder h.records) {i j : Nat}
    {ks : List Nat} {c d : Chunk} (his : h.chunks.forth = i :: j :: ks) (hc : h.chunk? i = some c)
    (hd : h.chunk? j = some d) {last : Record} (hlast : c.records.getLast? = some last)
    {boundary : Int} (hbefore : last.sec < boundary)
    (hleft : d.records.dropWhile (fun r => decide (r.sec = last.sec)) ≠ []) :
    ∃ split g gone g', h.popSecond last.sec j d.size = (split, g) ∧ g.removeChunk i = (gone, g') ∧
      h.Trimmed boundary last.sec (split ++ gone) g' := by
  obtain ⟨split, g, gone, g', hpop, hremove, hsplits, hgone, hgt, hgrs⟩ :=
    ht.dropChunk his hc hd hleft (Nat.le_of_eq (ht.exact hd).length_records)
  have hk := ht.kept
  rw [his] at hk
  have hsplit := hk.records_split [] hc
  rw [List.flatMap_nil, List.nil_append, List.flatMap_cons, recordsAt_eq hd] at hsplit
  refine ⟨split, g, gone, g', hpop, hremove, hgt, hbefore, ⟨last, ?_, rfl⟩, ?_, ?_, ?_⟩
  · rw [hsplit]
    exact List.mem_append_left _ (List.mem_of_getLast? hlast)
  · rw [hgrs]
    exact fun hnil => hleft (List.append_eq_nil_iff.1 hnil).1
  · rw [hgrs, hsplit]
    exact (filter_after (hsplit ▸ ho) hlast hleft).symm
  · rw [Released.records_append, hsplits, hgone, hsplit, hgrs, List.append_assoc]
    refine (List.perm_append_comm_assoc _ _ _).trans ?_
    rw [← List.append_assoc (List.takeWhile _ _), List.takeWhile_append_dropWhile]

/-- The rounds of a trim let go of nothing, or of a prefix in whole seconds. -/
theorem Tidy.trimChunks {h : History} (ht : h.Tidy) (ho : InOrder h.records)
    (boundary newest : Int) (n : Nat) :
    History.trimChunks boundary newest n h = (none, {}, h) ∨
      ∃ sec gone g, History.trimChunks boundary newest n h = (some sec, gone, g) ∧
        h.Trimmed boundary sec gone g := by
  induction n generalizing h with
  | zero => exact Or.inl rfl
  | succ n ih =>
    have hk := ht.kept
    rw [History.trimChunks, hk.linked.tail]
    cases his : h.chunks.forth with
    | nil => exact Or.inl rfl
    | cons i is =>
      rw [his] at hk
      rw [List.head?_cons]
      simp only [hk.linked.next?_eq (List.nil_append (i :: is)).symm]
      cases is with
      | nil => exact Or.inl rfl
      | cons j ks =>
        obtain ⟨c, hc⟩ := hk.exists_chunk (i := i) (by simp)
        obtain ⟨d, hd⟩ := hk.exists_chunk (i := j) (by simp)
        obtain ⟨last, hlast⟩ := Option.ne_none_iff_exists'.1
          (mt List.getLast?_eq_none_iff.1 ((ht.exact hc).lt_iff.1 (ht.shaped.filled hc)))
        have hdne := (ht.exact hd).lt_iff.1 (ht.shaped.filled hd)
        obtain ⟨nextFirst, hfirst⟩ := Option.ne_none_iff_exists'.1
          (mt List.head?_eq_none_iff.1 hdne)
        obtain ⟨nextLast, hnext⟩ := Option.ne_none_iff_exists'.1
          (mt List.getLast?_eq_none_iff.1 hdne)
        simp only [List.head?_cons, hc, hd, Option.bind_some, Option.elim_some,
          (ht.exact hc).newest?_eq, (ht.exact hd).newest?_eq, (ht.exact hd).oldest?_eq, hlast,
          hfirst, hnext]
        split
        · exact Or.inl rfl
        · next hgo =>
          rw [not_or, not_or, not_and_or] at hgo
          have hleft : d.records.dropWhile (fun r => decide (r.sec = last.sec)) ≠ [] := by
            rw [Ne, List.dropWhile_eq_nil_iff]
            intro hall
            rcases hgo.2.2 with hne | hne
            · exact hne (by simpa using hall nextFirst (List.mem_of_head? hfirst))
            · exact hne (by simpa using hall nextLast (List.mem_of_getLast? hnext))
          obtain ⟨split, g, gone, g', hpop, hremove, hround⟩ :=
            ht.trimmed_round ho his hc hd hlast (Int.not_le.1 hgo.1) hleft
          right
          simp only [hpop, hremove]
          have ho' : InOrder g'.records := by
            rw [hround.records]
            exact ho.filter _
          rcases ih hround.tidy ho' with hnone | ⟨sec, rest, g'', hsome, hrest⟩
          · refine ⟨last.sec, split ++ gone ++ {}, g', by rw [hnone]; rfl, ?_⟩
            have hnil : split ++ gone ++ {} = split ++ gone := by
              show Released.mk _ _ = _
              simp
            rw [hnil]
            exact hround
          · exact ⟨sec, _, g'', by rw [hsome]; rfl, hround.trans hrest⟩

/-- **A trim** lets go of nothing, or of a prefix in whole seconds from before the boundary, and
something is left. -/
theorem Tidy.trim {h : History} (ht : h.Tidy) (ho : InOrder h.records) (boundary : Int) :
    (h.trim boundary) = (none, {}, h) ∨
      ∃ sec gone g, h.trim boundary = (some sec, gone, g) ∧ h.Trimmed boundary sec gone g := by
  rw [History.trim]
  cases h.newest? with
  | none => exact Or.inl rfl
  | some r => exact ht.trimChunks ho boundary r.sec h.length

end History

end HistoryCache
