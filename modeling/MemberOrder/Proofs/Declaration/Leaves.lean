import MemberOrder.Proofs.Declaration.Ends
import MemberOrder.Proofs.Declaration.Stretches
/-! Members that declare no type, in pieces. What a text has at the places in such a member lies in its
pieces, so in front of another end the member is read again with the same types. Main statement:
`Rule.exists_ended`. -/
namespace MemberOrder

section Stops

variable {s : List Char} {ps qs : List Piece} {q : Piece} {z : Symbol}

theorem Tells.text_of_stops {text : List Char} {payload? : Option (List Char)}
    (h : Tells z text payload?) (hz : z.Stops) : text = z.name.toList := by
  cases hz <;> (cases h; rfl)

theorem stop_of_scan (h : scan s = ⟨ps ++ q :: qs, none⟩) (hq : q.symbol = some z) (hz : z.Stops) :
    q.text = z.name.toList ∧ Shut [q] := by
  obtain ⟨c, u, rest, hu, _, hhead, _⟩ := scan_uncons (scan_drop h)
  obtain ⟨symbol, text⟩ := q
  obtain rfl : symbol = some z := hq
  obtain rfl : text = c :: u := hu
  have htext := ((Head.formed hhead).tells default).text_of_stops hz
  refine ⟨htext, ?_⟩
  rw [htext]
  cases hz <;> exact Shut.of_head (u := []) fun _ => rfl

theorem shut_of_stops (h : scan s = ⟨ps ++ q :: qs, none⟩) (hq : q.symbol = some z) (hz : z.Stops) :
    Shut (ps ++ [q]) := by
  obtain ⟨htext, hshut⟩ := stop_of_scan h hq hz
  refine .of_scan h hshut fun c hc => ?_
  rw [htext] at hc
  cases hz <;> (cases hc; decide)

end Stops

theorem textIn_map {g bs bs' : List Piece} {up : Nat → Nat}
    (hup : ∀ n, up (n + (heard bs).length) = n + (heard bs').length) {a : Extent}
    (ha : a.Between (heard (g ++ bs)).length (heard bs).length) (as as' : List Piece) :
    textIn (as ++ (g ++ bs)) a = textIn (as' ++ (g ++ bs')) (a.map up) := by
  obtain ⟨hleft, hlt, hunread⟩ := ha
  obtain ⟨unread, left⟩ := a
  obtain ⟨k, rfl⟩ := Nat.exists_eq_add_of_le' hleft
  obtain ⟨i, rfl⟩ := Nat.exists_eq_add_of_le' (hleft.trans hlt.le)
  rw [heard_append, List.length_append] at hunread
  simp only [Extent.map, hup]
  exact textAt_congr (by simpa using hlt) (by simpa using hunread) as bs as' bs'

section MapCongr

variable {σ σ' τ τ' : Type}

theorem Member.IsLeaf.map_congr {x : Member σ τ} (hleaf : x.IsLeaf) {f f' : σ → σ'} {g g' : τ → τ'}
    (hspan : f x.span = f' x.span) (hmodifiers : ∀ m ∈ x.modifiers?, m.map f = m.map f')
    (htype : ∀ a ∈ x.type?, g a = g' a) : x.map f g = x.map f' g' := by
  cases x with
  | type d => exact absurd rfl (hleaf d)
  | field | constructor | method | initializer | empty =>
    simp_all [Member.map, Member.span, Member.modifiers?, Member.type?]

theorem Modifiers.Front.map_congr {n : Nat} {m : Modifiers Extent} (h : m.Front n)
    {f f' : Extent → σ} (hf : f ⟨n, n - 1⟩ = f' ⟨n, n - 1⟩) : m.map f = m.map f' := by
  have hfirst : m.first?.map f = m.first?.map f' := by
    cases hsome : m.first? with
    | none => rfl
    | some a =>
      obtain rfl := h a hsome
      exact congrArg some hf
  simp only [map, hfirst]

end MapCongr

namespace Rule

theorem exists_up {z : Symbol} {e e' : List Symbol} (he : Closes z e) (he' : Closes z e')
    (t t' : List Symbol) : ∃ up, Seam z (e ++ t) (e' ++ t') up ∧ up t.length = t'.length := by
  refine ⟨fun n => if n ≤ t.length then t'.length else n - (e ++ t).length + (e' ++ t').length,
    ⟨he.stops, fun n => ?_⟩, if_pos (le_refl _)⟩
  cases he with
  | semicolon =>
    cases he'
    simp only [List.nil_append]
    split <;> omega
  | block =>
    rw [if_neg (by simp; omega)]
    omega

variable {kind : TypeKind} {owner : String} {s t : List Symbol} {x : RawMember} {w : List Piece}

/-- The pieces of a member that declares no type: those in front of its end, and its end `q` and `c`. In
front of another end of this sort, and of anything behind that, it is read again. -/
structure Ended (w : List Piece) (kind : TypeKind) (owner : String) (s t : List Symbol) (x : RawMember)
    (g : List Piece) (q : Piece) (c : List Piece) (z : Symbol) : Prop where
  placed : x.Placed s.length t.length
  suffix : t <:+ s
  pieces : behind s.length w = g ++ q :: (c ++ behind t.length w)
  sign : q.symbol = some z
  closes : Closes z (heard c)
  last : ∃ f y v, g ++ q :: c = f ++ [y] ∧ y.symbol = some v ∧ v.Stops
  block : x.hasBlock → z = .opening .curly
  again {c' qs s' : List Piece} (hc : Closes z (heard c')) (hs : s' = g ++ q :: (c' ++ qs)) :
    ∃ x', leaf kind owner (heard s') = .ok x' (heard qs) ∧
      ∀ {σ : Type} {place place' : Extent → σ},
        place ⟨s.length, t.length⟩ = place' ⟨(heard s').length, (heard qs).length⟩ →
        place ⟨s.length, s.length - 1⟩ = place' ⟨(heard s').length, (heard s').length - 1⟩ →
        ∀ as, x'.map place' (textIn (as ++ s')) = x.map place (textIn w)

theorem exists_end {p e : List Symbol} {z : Symbol} (he : Closes z e)
    (hw : p ++ z :: (e ++ t) <:+ heard w) : ∃ g q c,
      behind (p ++ z :: (e ++ t)).length w = g ++ q :: (c ++ behind t.length w) ∧ heard g = p ∧
      q.symbol = some z ∧ heard c = e ∧
      ∃ f y v, g ++ q :: c = f ++ [y] ∧ y.symbol = some v ∧ v.Stops := by
  obtain ⟨g, q, hsplit, hg, hq⟩ := behind_split hw
  cases he with
  | semicolon => exact ⟨g, q, [], hsplit, hg, hq, rfl, g, q, _, rfl, hq, .semicolon⟩
  | @block c hc =>
    have hend : c ++ [.closing .curly] ++ t = c ++ .closing .curly :: t := by simp
    rw [hend] at hsplit hw ⊢
    have hw' : c ++ .closing .curly :: t <:+ heard w := .trans ⟨p ++ [.opening .curly], by simp⟩ hw
    obtain ⟨f, y, hsplit', hf, hy⟩ := behind_split hw'
    refine ⟨g, q, f ++ [y], ?_, hg, hq, ?_, g ++ q :: f, y, _, by simp, hy, .closing⟩
    · rw [hsplit, hsplit']
      simp
    · rw [heard_append, hf, heard_cons _ hy, heard_nil]

theorem exists_ended (h : leaf kind owner s = .ok x t) (hw : s <:+ heard w) :
    ∃ g q c z, Ended w kind owner s t x g q c z := by
  obtain ⟨hplaced, hleaf⟩ := leaf_eq_ok kind owner h
  obtain ⟨p, z, e, hend⟩ := (Ends.leaf kind owner).ends h
  obtain rfl := hend.text
  obtain ⟨g, q, c, hpieces, rfl, hq, rfl, hlast⟩ := exists_end hend.closes hw
  have hsuffix : t <:+ heard g ++ z :: (heard c ++ t) := ⟨heard g ++ z :: heard c, by simp⟩
  refine ⟨g, q, c, z, hplaced, hsuffix, hpieces, hq, hend.closes, hlast, hend.block, fun {c' qs s'} hc hs => ?_⟩
  have hheard : heard s' = heard g ++ z :: (heard c' ++ heard qs) := by
    rw [hs, heard_append, heard_cons _ hq, heard_append]
  obtain ⟨up, hseam, hup⟩ := exists_up hend.closes hc t (heard qs)
  have hagain := hend.again hc hseam hup
  have hlength := hseam.up_length (heard g)
  rw [← hheard] at hagain hlength
  refine ⟨_, hagain, fun {σ place place'} hspan hfirst as => ?_⟩
  rw [Member.map_map]
  symm
  refine hleaf.map_congr ?_ (fun m hm => ?_) fun a ha => ?_
  · rw [hplaced.span, Function.comp_apply, Extent.map, hlength, hup, hspan]
  · have hpred : up ((heard g ++ z :: (heard c ++ t)).length - 1) = (heard s').length - 1 := by
      have hshort := hseam.up_add (heard g).length
      rw [hheard]
      simp only [List.length_append, List.length_cons] at hshort ⊢
      exact hshort
    refine (hplaced.front m hm).map_congr (hfirst.trans ?_)
    rw [Function.comp_apply, Extent.map, hlength, hpred]
  · have hbetween := (hend.typed a ha).resolve_left (by simp)
    obtain ⟨as₀, has₀⟩ := behind_suffix (heard g ++ z :: (heard c ++ t)).length w
    have hrest : heard (q :: (c ++ behind t.length w)) = z :: (heard c ++ t) := by
      rw [heard_cons _ hq, heard_append, heard_behind (hsuffix.trans hw)]
    have hrest' : heard (q :: (c' ++ qs)) = z :: (heard c' ++ heard qs) := by
      rw [heard_cons _ hq, heard_append]
    rw [← has₀, hpieces, hs]
    refine textIn_map (fun n => ?_) ?_ as₀ as
    · have hstep := hseam.up_add (n + 1)
      rw [hrest, hrest']
      simpa [Nat.add_assoc, Nat.add_comm 1] using hstep
    · rw [heard_append, hrest]
      exact hbetween

end Rule

end MemberOrder
