import Mathlib.Data.List.GetD
import MonkeySyntax.Proofs.Containment
import MonkeySyntax.Proofs.Reparsing

namespace MonkeySyntax

open Production

/-- The token of `us` at the place that a token has in `ts`. -/
def Token.exchanged (ts us : List Token) (t : Token) : Token :=
  us.getD (ts.idxOf t) t

section

variable {ts us : List Token}

/-- Exchanging the tokens of a row one for one leads to the other row. -/
theorem map_exchanged (hts : ts.Nodup) (hlength : ts.length = us.length) :
    ts.map (Token.exchanged ts us) = us := by
  refine List.ext_getElem (by rw [List.length_map, hlength]) fun i hi hi' => ?_
  rw [List.length_map] at hi
  rw [List.getElem_map, Token.exchanged, hts.idxOf_getElem i hi, List.getD_eq_getElem _ _ hi']

/-- What tokens of both rows have in common at every place, exchanged tokens have in common. -/
theorem apply_exchanged {α : Type} {g : Token → α} (hg : ts.map g = us.map g) (t : Token) :
    g (Token.exchanged ts us t) = g t := by
  have hself : ts.getD (ts.idxOf t) t = t := by
    by_cases ht : t ∈ ts
    · have hi := List.idxOf_lt_length_of_mem ht
      rw [List.getD_eq_getElem _ _ hi, List.getElem_idxOf]
    · rw [List.idxOf_eq_length ht, List.getD_eq_default _ _ (Nat.le_refl _)]
  calc g (us.getD (ts.idxOf t) t)
      = (us.map g).getD (ts.idxOf t) (g t) := by rw [List.getD_map]
    _ = (ts.map g).getD (ts.idxOf t) (g t) := by rw [hg]
    _ = g (ts.getD (ts.idxOf t) t) := by rw [List.getD_map]
    _ = g t := by rw [hself]

end

theorem Token.bare_eq_iff {t u : Token} :
    t.bare = u.bare ↔ t.kind = u.kind ∧ t.literal = u.literal := by
  cases t
  cases u
  simp [Token.bare]

theorem nodup_tokenize (source : String) : (tokenize source).Nodup := by
  apply (pairwise_before_tokenize source).imp
  rintro t u hlt rfl
  exact Position.not_before_self t.position hlt

namespace Node

theorem token_mapTokens (f : Token → Token) (n : Node) : (n.mapTokens f).token = f n.token := by
  cases n with
  | conditional t c b a => cases a <;> rfl
  | _ => rfl

mutual

theorem parts_mapTokens (f : Token → Token) :
    (n : Node) → (n.mapTokens f).parts = n.parts.map (mapTokens f)
  | .identifier .. | .integer .. | .boolean .. | .placeholder .. => rfl
  | .unary _ _ e | .returnStatement _ e | .expressionStatement _ e => by
    simp only [mapTokens, parts, parts_mapTokens f e, List.map_cons]
  | .binary _ l _ r | .letStatement _ l r | .conditional _ l r none => by
    simp only [mapTokens, parts, parts_mapTokens f l, parts_mapTokens f r, List.map_cons,
      List.map_append]
  | .conditional _ c b (some a) => by
    simp only [mapTokens, parts, parts_mapTokens f c, parts_mapTokens f b, parts_mapTokens f a,
      List.map_cons, List.map_append]
  | .function _ ps b => by
    simp only [mapTokens, parts, partsAll_mapAll f ps, parts_mapTokens f b, List.map_cons,
      List.map_append]
  | .call _ e as => by
    simp only [mapTokens, parts, partsAll_mapAll f as, parts_mapTokens f e, List.map_cons,
      List.map_append]
  | .block _ ss => by simp only [mapTokens, parts, partsAll_mapAll f ss, List.map_cons]

theorem partsAll_mapAll (f : Token → Token) :
    (ns : List Node) → partsAll (mapAll f ns) = (partsAll ns).map (mapTokens f)
  | [] => rfl
  | n :: ns => by
    simp only [mapAll, partsAll, parts_mapTokens f n, partsAll_mapAll f ns, List.map_append]

end

end Node

theorem apply_eq_self_of_map {α : Type} {g : α → α} {as : List α} (h : as = as.map g) {a : α}
    (ha : a ∈ as) : g a = a := by
  have hid : as.map g = as.map id := h.symm.trans as.map_id.symm
  exact List.map_inj_left.1 hid a ha

namespace Run

theorem statements_of_map {r r' : Run} {f : Token → Token}
    (h : r'.outcomes = r.outcomes.map (mapOutcome f)) :
    r'.statements = r.statements.map (Node.mapTokens f) := by
  let empty : Run := ⟨[], r.cursor, none⟩
  have hempty : r'.outcomes = empty.outcomes ++ r.outcomes.map (mapOutcome f) := h
  exact statements_of_outcomes hempty

theorem defects_of_map {r r' : Run} {f : Token → Token}
    (h : r'.outcomes = r.outcomes.map (mapOutcome f)) :
    r'.defects = r.defects.map (Defect.mapTokens f) := by
  let empty : Run := ⟨[], r.cursor, none⟩
  have hempty : r'.outcomes = empty.outcomes ++ r.outcomes.map (mapOutcome f) := h
  exact defects_of_outcomes hempty

end Run

theorem image_ofString {f : Token → Token} (hkind : ∀ t, (f t).kind = t.kind)
    (hliteral : ∀ t, (f t).literal = t.literal) {a b : String}
    (hmap : (tokenize a).map f = tokenize b) :
    (Mirror.image f hkind hliteral).At (.ofString a) (.ofString b) := by
  have hall (source : String) : tokenize source =
      (Cursor.ofString source).rest ++ [.finish (Cursor.ofString source).stop] := rfl
  rw [hall, hall, List.map_append] at hmap
  obtain ⟨hrest, hstop⟩ := List.append_inj' hmap rfl
  exact ⟨hrest.symm, (List.singleton_inj.1 hstop).symm⟩

/-- The tokens of a tree and those at which defects are found are tokens of the text. -/
theorem mem_tokenize_of_read (limit : Nat) (source : String) :
    (∀ n ∈ (parseWithin limit source).program.parts, n.token ∈ tokenize source) ∧
      ∀ e ∈ (parseWithin limit source).defects, e.token ∈ tokenize source := by
  -- tokens that are not of the text may be moved
  let f (t : Token) : Token := if t ∈ tokenize source then t else t.down 1
  have hmem {t : Token} (ht : t ∈ tokenize source) : f t = t := if_pos ht
  have hmoved {t : Token} (ht : t ∉ tokenize source) : f t = t.down 1 := if_neg ht
  have hfixed {t : Token} (ht : f t = t) : t ∈ tokenize source := by
    by_contra hnot
    have hline := congrArg (fun u => u.position.line) ((hmoved hnot).symm.trans ht)
    change t.position.line + 1 = t.position.line at hline
    omega
  have hbare (t : Token) : (f t).kind = t.kind ∧ (f t).literal = t.literal := by
    by_cases ht : t ∈ tokenize source
    · rw [hmem ht]
      exact ⟨rfl, rfl⟩
    · rw [hmoved ht]
      exact ⟨rfl, rfl⟩
  have hmap : (tokenize source).map f = tokenize source :=
    (List.map_congr_left fun t ht => hmem ht).trans (tokenize source).map_id
  have hat := image_ofString (fun t => (hbare t).1) (fun t => (hbare t).2) hmap
  -- so the text is read as itself with these tokens moved, and none of them turns up
  obtain ⟨houtcomes, -⟩ := runFrom_image _ _ limit hat
  refine ⟨fun n hn => ?_, fun e he => ?_⟩
  · have hparts : (parseWithin limit source).program.parts =
        (parseWithin limit source).program.parts.map (Node.mapTokens f) := by
      have hstatements := Run.statements_of_map houtcomes
      rw [← Node.mapAll_eq_map] at hstatements
      exact (congrArg Node.partsAll hstatements).trans (Node.partsAll_mapAll f _)
    have hn' := congrArg Node.token (apply_eq_self_of_map hparts hn)
    rw [Node.token_mapTokens] at hn'
    exact hfixed hn'
  · have he' := congrArg Defect.token (apply_eq_self_of_map (Run.defects_of_map houtcomes) he)
    rw [Defect.token_mapTokens] at he'
    exact hfixed he'

/-- Texts whose tokens agree in kind and literal at every place are read alike, whatever layout
stands between the tokens: the tokens of one text in the place of those of the other are all the
difference between the trees, and between the defects. -/
theorem parseWithin_respaced (limit : Nat) (a b : String)
    (hsame : (tokenize a).map Token.bare = (tokenize b).map Token.bare) :
    let run := parseWithin limit a
    let run' := parseWithin limit b
    ∃ f : Token → Token, (tokenize a).map f = tokenize b ∧
      run'.oversized = run.oversized ∧
      run'.statements = run.statements.map (Node.mapTokens f) ∧
      (∀ n ∈ run.program.parts, n.token ∈ tokenize a) ∧
      run'.defects = run.defects.map (Defect.mapTokens f) ∧
      run'.defects.map Defect.message = run.defects.map Defect.message ∧
      run'.defects.map Defect.token = (run.defects.map Defect.token).map f ∧
      ∀ e ∈ run.defects, e.token ∈ tokenize a := by
  intro run run'
  have hlength : (tokenize a).length = (tokenize b).length := by
    have h := congrArg List.length hsame
    rwa [List.length_map, List.length_map] at h
  obtain ⟨f, hbare, hmap⟩ : ∃ f : Token → Token,
      (∀ t, (f t).bare = t.bare) ∧ (tokenize a).map f = tokenize b :=
    ⟨_, apply_exchanged hsame, map_exchanged (nodup_tokenize a) hlength⟩
  have hkind (t : Token) : (f t).kind = t.kind := (Token.bare_eq_iff.1 (hbare t)).1
  have hliteral (t : Token) : (f t).literal = t.literal := (Token.bare_eq_iff.1 (hbare t)).2
  obtain ⟨houtcomes, hoversized⟩ :=
    runFrom_image hkind hliteral limit (image_ofString hkind hliteral hmap)
  obtain ⟨hnodes, htokens⟩ := mem_tokenize_of_read limit a
  have hdefects : run'.defects = run.defects.map (Defect.mapTokens f) :=
    Run.defects_of_map houtcomes
  have hmessage : Defect.message ∘ Defect.mapTokens f = Defect.message :=
    funext (Defect.message_mapTokens hkind hliteral)
  have htoken : Defect.token ∘ Defect.mapTokens f = f ∘ Defect.token :=
    funext (Defect.token_mapTokens f)
  refine ⟨f, hmap, hoversized, Run.statements_of_map houtcomes, hnodes, hdefects, ?_, ?_, htokens⟩
  · rw [hdefects, List.map_map, hmessage]
  · rw [hdefects, List.map_map, List.map_map, htoken]

theorem parseWithin_respaced_of_defects :
    let a := "let x 1; f(a b); !!!x; fn(x) \x7b x"
    let b := "let x\n1;f( a\tb );!!! x;fn( x )\n\x7bx\n"
    (tokenize a).map Token.bare = (tokenize b).map Token.bare ∧
      (parseWithin 3 a).defects.map (fun e => e.token.position) =
        [⟨1, 7⟩, ⟨1, 14⟩, ⟨1, 15⟩, ⟨1, 16⟩, ⟨1, 21⟩, ⟨1, 30⟩] ∧
      (parseWithin 3 b).defects.map (fun e => e.token.position) =
        [⟨2, 1⟩, ⟨2, 8⟩, ⟨2, 10⟩, ⟨2, 11⟩, ⟨2, 16⟩, ⟨3, 1⟩] ∧
      ∃ f : Token → Token, (tokenize a).map f = tokenize b ∧
        (parseWithin 3 b).statements = (parseWithin 3 a).statements.map (Node.mapTokens f) ∧
        (parseWithin 3 b).defects = (parseWithin 3 a).defects.map (Defect.mapTokens f) := by
  intro a b
  have hsame : (tokenize a).map Token.bare = (tokenize b).map Token.bare := by decide +kernel
  obtain ⟨f, hmap, -, hstatements, -, hdefects, -⟩ := parseWithin_respaced 3 a b hsame
  refine ⟨hsame, ?_, ?_, f, hmap, hstatements, hdefects⟩ <;> decide +kernel

end MonkeySyntax
