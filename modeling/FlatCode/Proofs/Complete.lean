import FlatCode.Proofs.Accounts

/-! Finished functions. A draft whose books are closed makes a function, and the table of
labels of that function tells where each label stands. -/
namespace FlatCode
open Code List

theorem Code.Instr.isUnresolved_eq (i : Instr) : i.isUnresolved = !i.openEdges.isEmpty := by
  cases i with
  | branch c p n => cases p <;> cases n <;> rfl
  | jump t => cases t <;> rfl
  | _ => rfl

theorem Code.Instr.isUnresolved_of_openEdges {i : Instr} (h : i.openEdges = []) :
    i.isUnresolved = false := by
  rw [isUnresolved_eq, h]
  rfl

namespace Draft

theorem size_noteLabel (places : Array (Option InstrId)) (entry : Instr × Nat) :
    (noteLabel places entry).size = places.size := by
  unfold noteLabel
  split <;> simp

theorem size_foldl_noteLabel : ∀ (code : List (Instr × Nat)) (places : Array (Option InstrId)),
    (code.foldl noteLabel places).size = places.size
  | [], _ => rfl
  | entry :: code, places => by
    rw [foldl_cons, size_foldl_noteLabel code, size_noteLabel]

theorem foldl_noteLabel_absent (l : Label) : ∀ (code : List Instr) (n : Nat)
    (places : Array (Option InstrId)), .label l ∉ code →
      ((code.zipIdx n).foldl noteLabel places)[l.index]? = places[l.index]?
  | [], _, _, _ => rfl
  | i :: code, n, places, h => by
    rw [mem_cons, not_or] at h
    rw [zipIdx_cons, foldl_cons, foldl_noteLabel_absent l code _ _ h.2]
    unfold noteLabel
    split
    · rename_i l' hi
      have hne : l'.index ≠ l.index := by
        intro he
        have hl : l' = l := by cases l'; cases l; simpa using he
        simp only at hi
        exact h.1 (by rw [hi, hl])
      rw [Array.getElem?_setIfInBounds_ne hne]
    · rfl

theorem foldl_noteLabel_unique (l : Label) : ∀ (code : List Instr) (n k : Nat)
    (places : Array (Option InstrId)), code[k]? = some (.label l) →
      (∀ k', code[k']? = some (.label l) → k' = k) → l.index < places.size →
      ((code.zipIdx n).foldl noteLabel places)[l.index]? = some (some ⟨n + k⟩)
  | [], _, _, _, h, _, _ => by simp at h
  | i :: code, n, 0, places, h, unique, hl => by
    have hi : i = .label l := by simpa using h
    subst hi
    have absent : .label l ∉ code := by
      intro hm
      obtain ⟨k', hk'⟩ := mem_iff_getElem?.1 hm
      have := unique (k' + 1) (by simpa using hk')
      omega
    rw [zipIdx_cons, foldl_cons, foldl_noteLabel_absent l code _ _ absent]
    simp [noteLabel, hl]
  | i :: code, n, k + 1, places, h, unique, hl => by
    rw [zipIdx_cons, foldl_cons]
    have rest := foldl_noteLabel_unique l code (n + 1) k (noteLabel places (i, n))
      (by simpa using h)
      (fun k' hk' => by simpa using unique (k' + 1) (by simpa using hk'))
      (by rw [size_noteLabel]; exact hl)
    rw [rest]
    congr 3
    omega

theorem labelPlaces_unique {code : Array Instr} {l : Label} {k count : Nat}
    (h : code[k]? = some (.label l)) (unique : ∀ k', code[k']? = some (.label l) → k' = k)
    (hl : l.index < count) : (labelPlaces code count)[l.index]? = some (some ⟨k⟩) := by
  have found := foldl_noteLabel_unique l code.toList 0 k (Array.replicate count none)
    (by simpa using h) (by simpa using unique) (by simpa using hl)
  unfold labelPlaces
  rw [← Array.foldl_toList, Array.toList_zipIdx]
  simpa using found

theorem mapM_requirePlace : ∀ (places : List (Option InstrId)) (n : Nat),
    (∀ p ∈ places, p ≠ none) →
      ∃ ids, (places.zipIdx n).mapM requirePlace = .ok ids ∧ places = ids.map some
  | [], _, _ => ⟨[], rfl, rfl⟩
  | none :: _, _, h => absurd rfl (h none mem_cons_self)
  | some i :: places, n, h => by
    obtain ⟨ids, hids, rfl⟩ := mapM_requirePlace places (n + 1)
      fun p hp => h p (mem_cons_of_mem _ hp)
    refine ⟨i :: ids, ?_, rfl⟩
    rw [zipIdx_cons, mapM_cons, hids]
    rfl

theorem index_unique {f : α → Option β} {b : β} : ∀ {as : List α}, (as.filterMap f).Nodup →
    ∀ {j k : Nat} {a a' : α}, as[j]? = some a → as[k]? = some a' → f a = some b → f a' = some b →
      j = k
  | [], _, _, _, _, _, h, _, _, _ => by simp at h
  | x :: as, hn, j, k, a, a', hj, hk, ha, ha' => by
    have later {a : α} {j : Nat} (hj : as[j]? = some a) (ha : f a = some b) :
        b ∈ as.filterMap f := mem_filterMap.2 ⟨a, mem_of_getElem? hj, ha⟩
    cases j with
    | zero =>
      cases k with
      | zero => rfl
      | succ k =>
        obtain rfl : x = a := by simpa using hj
        rw [filterMap_cons_some ha, nodup_cons] at hn
        exact absurd (later (by simpa using hk) ha') hn.1
    | succ j =>
      have hn' : (as.filterMap f).Nodup :=
        hn.sublist ((sublist_cons_self x as).filterMap f)
      cases k with
      | zero =>
        obtain rfl : x = a' := by simpa using hk
        rw [filterMap_cons_some ha', nodup_cons] at hn
        exact absurd (later (by simpa using hj) ha) hn.1
      | succ k =>
        have hjk : j = k := index_unique hn' (by simpa using hj) (by simpa using hk) ha ha'
        rw [hjk]

namespace Accounts
variable {d : Draft} {owed : List Label}

theorem place_unique (h : d.Accounts live owed) {l : Label} {j k : Nat}
    (hj : d.body[j]? = some (.label l)) (hk : d.body[k]? = some (.label l)) : j = k := by
  have nodup : d.placed.Nodup := by
    have all := h.labels.nodup_iff.2
      (List.Pairwise.map _ (fun a b hab => by simpa using hab) nodup_range)
    exact (nodup_append.1 all).1
  exact index_unique nodup (by simpa using hj) (by simpa using hk) rfl rfl

theorem exists_place (h : d.Accounts live []) {j : Nat} (hj : j < d.labels) :
    ∃ k : Nat, d.body[k]? = some (.label ⟨j⟩) := by
  have placed : ⟨j⟩ ∈ d.placed ++ [] :=
    h.labels.mem_iff.2 (mem_map.2 ⟨j, mem_range.2 hj, rfl⟩)
  rw [append_nil] at placed
  obtain ⟨i, hi, hp⟩ := mem_filterMap.1 placed
  obtain ⟨k, hk⟩ := mem_iff_getElem?.1 hi
  refine ⟨k, ?_⟩
  cases i with
  | label l =>
    obtain rfl : l = ⟨j⟩ := by simpa [Instr.placed?] using hp
    simpa using hk
  | _ => cases hp

theorem label_lt (h : d.Accounts live owed) {l : Label} {k : Nat}
    (hk : d.body[k]? = some (.label l)) : l.index < d.labels := by
  have placed : l ∈ d.placed :=
    mem_filterMap.2 ⟨.label l, Array.mem_toList_iff.2 (Array.mem_of_getElem? hk), rfl⟩
  have made := h.labels.mem_iff.1 (mem_append_left _ placed)
  obtain ⟨j, hj, rfl⟩ := mem_map.1 made
  exact mem_range.1 hj

theorem openEdges_eq_nil (h : d.Accounts [] owed) (entry : ∀ i ∈ d.entry, i.isSetup) {i : Instr}
    (hi : i ∈ d.entry ++ d.body) : i.openEdges = [] := by
  rcases Array.mem_append.1 hi with hi | hi
  · exact (Instr.isSettled_iff.1
      (Instr.isSettled_of_straight (Instr.isStraight_of_setup (entry i hi)))).1
  · obtain ⟨k, hk⟩ := Array.mem_iff_getElem?.1 hi
    refine eq_nil_iff_forall_not_mem.2 fun e he => ?_
    have hopen : d.Open ⟨⟨k⟩, e⟩ := by simpa [Open, hk] using (i.mem_openEdges e).1 he
    simpa using (h.mem_iff _).2 hopen

end Accounts

/-- The finished code of a draft: slots and body in one, and every label at its place. -/
structure Finished (d : Draft) (c : Code.Function) : Prop where
  instrs : c.instrs = d.entry ++ d.body
  registers : c.registers = d.registers
  labels : ∀ (k : Nat) (l : Label), d.body[k]? = some (.label l) →
    c.labels[l.index]? = some ⟨d.entry.size + k⟩

theorem toFunction_finished {d : Draft} (h : d.Accounts [] [])
    (entry : ∀ i ∈ d.entry, i.isSetup) (name : String) (arguments : List Register)
    (pads : Nat) : ∃ c, d.toFunction name arguments pads = .ok c ∧ d.Finished c := by
  have settled : (d.entry ++ d.body).findIdx? Instr.isUnresolved = none :=
    Array.findIdx?_eq_none_iff.2 fun _ hi =>
      Instr.isUnresolved_of_openEdges (h.openEdges_eq_nil entry hi)
  -- labels stand in the body only, each once
  have place {k : Nat} {l : Label} (hk : d.body[k]? = some (.label l)) :
      (labelPlaces (d.entry ++ d.body) d.labels)[l.index]? = some (some ⟨d.entry.size + k⟩) := by
    refine labelPlaces_unique ?_ (fun k' hk' => ?_) (h.label_lt hk)
    · rw [Array.getElem?_append_right (by omega)]
      simpa using hk
    · by_cases hlt : k' < d.entry.size
      · rw [Array.getElem?_append_left hlt] at hk'
        exact absurd (entry _ (Array.mem_of_getElem? hk')) (by simp [Instr.isSetup])
      · rw [Array.getElem?_append_right (Nat.le_of_not_lt hlt)] at hk'
        have := h.place_unique hk' hk
        omega
  obtain ⟨ids, hids, hall⟩ := mapM_requirePlace (labelPlaces (d.entry ++ d.body) d.labels).toList 0
    fun p hp hnone => by
      obtain ⟨j, hj⟩ := mem_iff_getElem?.1 hp
      have hlt : j < d.labels := by
        have hsize : (labelPlaces (d.entry ++ d.body) d.labels).size = d.labels := by
          unfold labelPlaces
          rw [← Array.foldl_toList, size_foldl_noteLabel]
          simp
        have := (List.getElem?_eq_some_iff.1 hj).1
        simpa [hsize] using this
      obtain ⟨k, hk⟩ := h.exists_place hlt
      have := place hk
      rw [Array.getElem?_toList] at hj
      rw [hj, hnone] at this
      cases this
  refine ⟨⟨name, d.registers, arguments, d.entry ++ d.body, ids, pads⟩, ?_, rfl, rfl,
    fun k l hk => ?_⟩
  · unfold toFunction
    simp only [settled, hids]
    rfl
  · have found := place hk
    rw [← Array.getElem?_toList, hall, getElem?_map] at found
    cases hl : ids[l.index]? with
    | none => simp [hl] at found
    | some id => simpa [hl] using found

theorem length_mapM {g : α → Except Error β} : ∀ {as : List α} {bs : List β},
    as.mapM g = .ok bs → bs.length = as.length
  | [], bs, h => by
    cases h
    rfl
  | a :: as, bs, h => by
    rw [mapM_cons] at h
    cases ha : g a with
    | error e =>
      rw [ha] at h
      cases h
    | ok b =>
      cases hs : as.mapM g with
      | error e =>
        rw [ha, hs] at h
        cases h
      | ok bs' =>
        rw [ha, hs] at h
        cases h
        exact congrArg (· + 1) (length_mapM hs)

structure Fields (d : Draft) (name : String) (arguments : List Register) (pads : Nat)
    (c : Code.Function) : Prop where
  name : c.name = name
  arguments : c.arguments = arguments
  instrs : c.instrs = d.entry ++ d.body
  pads : c.landingPads = pads
  labels : c.labels.length = d.labels

theorem toFunction_fields {d : Draft} {name : String} {arguments : List Register} {pads : Nat}
    {c : Code.Function} (h : d.toFunction name arguments pads = .ok c) :
    d.Fields name arguments pads c := by
  unfold toFunction at h
  dsimp only at h
  split at h
  · cases h
  · cases hl : (labelPlaces (d.entry ++ d.body) d.labels).toList.zipIdx.mapM requirePlace with
    | error e =>
      rw [hl] at h
      cases h
    | ok labels =>
      rw [hl] at h
      cases h
      refine ⟨rfl, rfl, rfl, rfl, ?_⟩
      have places : (labelPlaces (d.entry ++ d.body) d.labels).size = d.labels := by
        unfold labelPlaces
        rw [← Array.foldl_toList, size_foldl_noteLabel]
        simp
      simpa [places] using length_mapM hl

end Draft
end FlatCode
