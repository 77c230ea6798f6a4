import MemberOrder.Proofs.Check.Payloads
import MemberOrder.Proofs.Declaration.Edits
import MemberOrder.Proofs.Order.Tidy
/-! A text without the members that are found late. It is accepted, the rest of its tree is as before, and
nothing is found in it. Main statement: `checkSource_outside`. -/
namespace MemberOrder

/-- A text whose first byte is the `n`th, without the characters that begin in one of the spans. -/
def outside (as : List Span) : Nat → List Char → List Char
  | _, [] => []
  | n, c :: s =>
    if as.any (fun a => a.start ≤ n ∧ n < a.stop) then outside as (n + c.utf8Size) s
    else c :: outside as (n + c.utf8Size) s

section Outside

variable {as : List Span} {n : Nat} {s t : List Char}

theorem outside_append : outside as n (s ++ t) = outside as n s ++ outside as (n + byteCount s) t := by
  induction s generalizing n with
  | nil => rfl
  | cons c s ih =>
    rw [List.cons_append, outside, outside, ih, byteCount, Nat.add_assoc]
    split <;> rfl

theorem outside_of_apart (h : ∀ a ∈ as, a.stop ≤ n ∨ n + byteCount s ≤ a.start) :
    outside as n s = s := by
  induction s generalizing n with
  | nil => rfl
  | cons c s ih =>
    have hc := Char.utf8Size_pos c
    have hnone : ¬ as.any (fun a => a.start ≤ n ∧ n < a.stop) := by
      intro hany
      obtain ⟨a, ha, hin⟩ := List.any_eq_true.1 hany
      have hin := of_decide_eq_true hin
      have hout := h a ha
      rw [byteCount] at hout
      omega
    rw [outside, if_neg hnone, ih]
    intro a ha
    have hout := h a ha
    rw [byteCount] at hout
    omega

theorem outside_of_within {a : Span} (ha : a ∈ as) (hstart : a.start ≤ n)
    (hstop : n + byteCount s ≤ a.stop) : outside as n s = [] := by
  induction s generalizing n with
  | nil => rfl
  | cons c s ih =>
    have hc := Char.utf8Size_pos c
    rw [byteCount] at hstop
    have hany : as.any (fun a => a.start ≤ n ∧ n < a.stop) :=
      List.any_eq_true.2 ⟨a, ha, decide_eq_true ⟨hstart, by omega⟩⟩
    rw [outside, if_pos hany]
    exact ih (by omega) (by omega)

end Outside

/-- Pieces, and what is left of them when stretches at some extents are taken out. What is in front of a
gap is shut. -/
inductive Cuts : List Extent → List Piece → List Piece → Prop
  | done (ps : List Piece) : Cuts [] ps ps
  | keep {es g qs qs'} (hg : Shut g) (h : Cuts es qs qs') : Cuts es (g ++ qs) (g ++ qs')
  | cut {es m qs qs'} (hm : Stretch m) (h : Cuts es qs qs') :
      Cuts (⟨(heard (m ++ qs)).length, (heard qs).length⟩ :: es) (m ++ qs) qs'

namespace Cuts

variable {es : List Extent} {ps ps' : List Piece}

theorem scan_eq (h : Cuts es ps ps') (hps : scan (joined ps) = ⟨ps, none⟩) :
    scan (joined ps') = ⟨ps', none⟩ := by
  induction h with
  | done => exact hps
  | keep hg _ ih =>
    rw [joined_append, hg, ih (scan_drop hps)]
    rfl
  | cut _ _ ih => exact ih (scan_drop hps)

theorem start_le (h : Cuts es ps ps') (as : List Piece) :
    ∀ e ∈ es, byteCount (joined as) ≤ ((Tokens.ofPieces (as ++ ps)).span e).start := by
  induction h generalizing as with
  | done => simp
  | @keep es g qs qs' _ _ ih =>
    intro e he
    have hle := ih (as ++ g) e he
    rw [joined_append, byteCount_append, List.append_assoc] at hle
    omega
  | @cut es m qs qs' hm _ ih =>
    intro e he
    obtain rfl | he := List.mem_cons.1 he
    · rw [hm.span_eq, Span.between, Position.start_after]
    · have hle := ih (as ++ m) e he
      rw [joined_append, byteCount_append, List.append_assoc] at hle
      omega

theorem outside_eq (h : Cuts es ps ps') (as : List Piece) (done : List Span)
    (hdone : ∀ a ∈ done, a.stop ≤ byteCount (joined as)) :
    outside (done ++ es.map (Tokens.ofPieces (as ++ ps)).span) (byteCount (joined as)) (joined ps) =
      joined ps' := by
  induction h generalizing as done with
  | done ps =>
    rw [List.map_nil, List.append_nil]
    exact outside_of_apart fun a ha => .inl (hdone a ha)
  | @keep es g qs qs' _ h ih =>
    have hbytes : byteCount (joined (as ++ g)) = byteCount (joined as) + byteCount (joined g) := by
      rw [joined_append, byteCount_append]
    have hrest := ih (as ++ g) done fun a ha => by
      have hle := hdone a ha
      omega
    rw [List.append_assoc, hbytes] at hrest
    rw [joined_append, outside_append, hrest, joined_append, outside_of_apart]
    intro a ha
    obtain ha | ha := List.mem_append.1 ha
    · exact .inl (hdone a ha)
    · obtain ⟨e, he, rfl⟩ := List.mem_map.1 ha
      have hle := h.start_le (as ++ g) e he
      rw [hbytes, List.append_assoc] at hle
      exact .inr hle
  | @cut es m qs qs' hm h ih =>
    have hbytes : byteCount (joined (as ++ m)) = byteCount (joined as) + byteCount (joined m) := by
      rw [joined_append, byteCount_append]
    have hspan := hm.span_eq as qs
    generalize hfirst : (Tokens.ofPieces (as ++ (m ++ qs))).span
      ⟨(heard (m ++ qs)).length, (heard qs).length⟩ = first at hspan
    have hstart : first.start = byteCount (joined as) := by
      rw [hspan, Span.between, Position.start_after]
    have hstop : first.stop = byteCount (joined as) + byteCount (joined m) := by
      rw [hspan, ← byteCount_append]
      simp only [Span.between, Position.start_after]
    have hrest := ih (as ++ m) (done ++ [first]) fun a ha => by
      obtain ha | ha := List.mem_append.1 ha
      · have hle := hdone a ha
        omega
      · rw [List.mem_singleton.1 ha, hstop, hbytes]
    rw [List.append_assoc as m qs, hbytes, List.append_assoc done, List.singleton_append] at hrest
    have hmem : first ∈ done ++ first :: es.map (Tokens.ofPieces (as ++ (m ++ qs))).span := by simp
    rw [List.map_cons, hfirst, joined_append, outside_append, hrest,
      outside_of_within hmem hstart.le (by omega), List.nil_append]

end Cuts

theorem exists_silent_stretch {y : Piece} (hy : y.symbol ≠ none) (ps : List Piece) :
    ∃ f m, ps ++ [y] = f ++ m ∧ Silent f ∧ Stretch m := by
  induction ps with
  | nil => exact ⟨[], [y], rfl, by simp [Silent], ⟨y, [], rfl, hy⟩, [], y, rfl, hy⟩
  | cons p ps ih =>
    by_cases hp : p.symbol = none
    · obtain ⟨f, m, hsplit, hf, hm⟩ := ih
      exact ⟨p :: f, m, by rw [List.cons_append, hsplit]; rfl, List.forall_mem_cons.2 ⟨hp, hf⟩, hm⟩
    · exact ⟨[], p :: (ps ++ [y]), rfl, by simp [Silent], ⟨p, _, rfl, hp⟩, p :: ps, y, rfl, hy⟩

section Edit

variable {w : List Piece}

theorem scan_of_suffix {ps : List Piece} (hw : scan (joined w) = ⟨w, none⟩) (h : ps <:+ w) :
    scan (joined ps) = ⟨ps, none⟩ := by
  obtain ⟨as, rfl⟩ := h
  exact scan_drop hw

def Edit.tidy (hscan : scan (joined w) = ⟨w, none⟩) : Edit Extent Unit w where
  turns := Cuts
  place _ := ()
  place' _ := ()
  gone := Member.isLate
  marks := Member.latePlace
  keep := by
    intro es g qs qs' q z hz hq hw h
    have hshut := shut_of_stops (scan_of_suffix hscan hw) hq hz
    have hkeep := Cuts.keep hshut h
    rwa [List.append_assoc, List.append_assoc] at hkeep
  place_eq _ _ _ _ := rfl
  first_eq _ _ _ := rfl
  leaf := by
    intro kind owner s t x g c qs q z es hw h ht ordered earlier
    have hpieces := scan_of_suffix hscan (behind_suffix s.length w)
    rw [h.pieces] at hpieces
    obtain ⟨f, y, v, hlast, hy, hv⟩ := h.last
    have hrest : heard (behind t.length w) = t := heard_behind (h.suffix.trans hw)
    have hsplit (bs : List Piece) : g ++ q :: (c ++ bs) = f ++ [y] ++ bs := by
      rw [← hlast]
      simp
    cases hlate : x.isLate ordered earlier with
    | true =>
      refine .inl ⟨rfl, ?_⟩
      -- What is silent in front of the member stays.
      have hne : y.symbol ≠ none := by simp [hy]
      obtain ⟨f', m, hfm, hf', hm⟩ := exists_silent_stretch hne f
      have hwhole := hsplit (behind t.length w)
      rw [hfm, List.append_assoc] at hwhole
      have hspan : x.span = ⟨(heard (m ++ behind t.length w)).length,
          (heard (behind t.length w)).length⟩ := by
        have hall : heard (m ++ behind t.length w) = s := by
          rw [← heard_behind hw, h.pieces, hwhole, heard_append f', hf'.heard_eq, List.nil_append]
        rw [hall, hrest, h.placed.span]
      have hshut : Shut f' := by
        obtain ⟨q', m', rfl, hq'⟩ := hm.first
        rw [hwhole] at hpieces
        exact .of_silent hpieces hf' hq'
      refine ⟨f', hf'.heard_eq, ?_⟩
      rw [Member.latePlace, hlate, if_pos rfl, hspan, hwhole]
      exact .keep hshut (.cut hm ht)
    | false =>
      refine .inr ⟨rfl, c, h.closes, ?_⟩
      rw [hsplit, List.append_assoc] at hpieces
      rw [Member.latePlace, hlate, hsplit, hsplit]
      exact .keep (shut_of_stops hpieces hy hv) ht

end Edit

theorem parse_outside {source : List Char} {u : SourceUnit} (h : parse source = .ok u) :
    ∃ u', parse (outside u.latePlaces 0 source) = .ok u' ∧
      u'.map (fun _ => ()) id = (u.without Member.isLate).map (fun _ => ()) id := by
  obtain ⟨w, v, hscan, hfile, rfl⟩ := pieces_of_parse h
  obtain ⟨_, rfl⟩ := tokenize_of_pieces hscan
  have hend : (Edit.tidy hscan).turns [] (behind 0 w) (behind 0 w) := .done _
  obtain ⟨w', v', hturns, hfile', hmap⟩ := Edit.file_follows hfile hend (heard_behind List.nil_suffix)
  have hcuts : Cuts v.latePlaces w w' := hturns
  have houtside : outside (v.latePlaces.map (Tokens.ofPieces w).span) 0 (joined w) = joined w' :=
    hcuts.outside_eq [] [] (by simp)
  rw [CompilationUnit.latePlaces_map, houtside]
  refine ⟨_, parse_of_file (hcuts.scan_eq hscan) hfile', ?_⟩
  rw [CompilationUnit.map_map, CompilationUnit.without_map _ _ (Member.isLate_map _ _),
    CompilationUnit.map_map]
  exact hmap

/-- The findings in a text are gone with the members they are about, and nothing else is. -/
theorem checkSource_outside {path : Path} {source : String} {vs : List Violation}
    (h : checkSource path source = .ok vs) :
    PlacesInOrder source.toList (vs.map (·.position)) ∧
    ∃ u u', parse source.toList = .ok u ∧
      parse (outside (vs.map (·.position)) 0 source.toList) = .ok u' ∧
      u'.map (fun _ => ()) id =
        (u.without (Member.standsIn (vs.map (·.position)))).map (fun _ => ()) id ∧
      checkSource path (String.ofList (outside (vs.map (·.position)) 0 source.toList)) = .ok [] := by
  obtain ⟨u, hu⟩ : ∃ u, parse source.toList = .ok u := by
    rw [checkSource] at h
    split at h
    next => cases h
    next u hu => exact ⟨u, hu⟩
  rw [checkSource_of_parse hu] at h
  obtain rfl := Except.ok.inj h
  rw [u.position_findings]
  obtain ⟨u', hu', hsame⟩ := parse_outside hu
  refine ⟨latePlaces_inOrder hu, u, u', hu, hu', by rw [hsame, without_late_eq hu], ?_⟩
  have htold := CompilationUnit.told_congr_of_places hsame
  rw [u.findings_without_late, List.map_nil, List.map_eq_nil_iff] at htold
  rw [checkSource_of_parse (by rw [String.toList_ofList, hu']), htold]

open Written in
theorem checkSource_outside_boxWith : ∃ vs,
    let box := String.ofList (write (boxWith brace))
    let rest := outside (vs.map (·.position)) 0 box.toList
    checkSource [] box = .ok vs ∧ vs.length = 1 ∧ PlacesInOrder box.toList (vs.map (·.position)) ∧
      checkSource [] (String.ofList rest) = .ok [] := by
  obtain ⟨v, hfile, hlate⟩ : ∃ v, Rule.file (symbols (boxWith brace)) = .ok v [] ∧
      v.latePlaces.length = 1 := ⟨_, by cbv, rfl⟩
  have hbox : parse (String.ofList (write (boxWith brace))).toList =
      .ok ((reading (boxWith brace)).located v) := by
    rw [String.toList_ofList, parse_write_eq, Reading.next, reading, hfile]
  have hcheck := checkSource_of_parse hbox []
  have hone := congrArg List.length ((reading (boxWith brace)).located v).position_findings
  rw [List.length_map, Reading.located, CompilationUnit.latePlaces_map, List.length_map, hlate] at hone
  obtain ⟨hplaces, _, _, _, _, _, hclean⟩ := checkSource_outside hcheck
  exact ⟨_, hcheck, hone, hplaces, hclean⟩

end MemberOrder
