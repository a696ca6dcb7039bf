import MethodFingerprint.Proofs.Pattern.Features
import MethodFingerprint.Proofs.Search.Failure
import MethodFingerprint.Proofs.Search.Greedy
import MethodFingerprint.Report

/-!
# What a report says

A report is made of a finding by rendering its fingerprints, and rendering asks the index once more
for the number of parameters of the target. Both go back to the last record of the target: every
fingerprint is a part of the features of this record (`Snapshot.exists_last_of_find`), and the
number is that of its parameters. So the patterns of a report are patterns of tokens of one method,
and nothing is lost in them but the bits of a mask that no flag accounts for.

`RankedFingerprint.Conveys` says this of one entry and `Snapshot.report_build` of a whole report.
-/

namespace MethodFingerprint

/-! ### Entries -/

namespace RankedFingerprint

/-- An entry of a report **conveys** a fingerprint of a method under a rank. -/
structure Conveys (e : RankedFingerprint) (rank : Nat) (s : Fingerprint) (m : Method) : Prop where
  rank_eq : e.rank = .ofNat rank
  features_eq : e.features = s.toList
  /-- The pattern is that of the fingerprint, written for as many parameters as the method has. -/
  text_render : (Pattern.render (some m.parameters.length) s.toList).text = e.pattern
  /-- No token is left out of the pattern. -/
  skipped_render : (Pattern.render (some m.parameters.length) s.toList).skipped = []
  /-- The pattern is read as what the fingerprint says, but for the bits of a mask that no flag
  accounts for. It has positions exactly if a token is about one, and then all of the method. -/
  exists_parse : ∃ p, Pattern.parse e.pattern = .ok p ∧
    p.features = e.features.map Feature.withKnownFlags ∧
    (p.parameters.isSome ↔ ∃ f ∈ e.features, ∃ i d, f.read = .ok (.parameter i d)) ∧
    ∀ slots, p.parameters = some slots → slots.length = min 255 m.parameters.length

/-- The entry of a ranked fingerprint of a method with a number of parameters. -/
def written (parameterCount : Nat) (p : Fingerprint × Nat) : RankedFingerprint :=
  ⟨.ofNat p.2, p.1.toList, (Pattern.render (some parameterCount) p.1.toList).text⟩

variable {m : Method} {s : Fingerprint} {l : List Fingerprint}

/-- **An entry conveys its fingerprint**, if all tokens are of the method. -/
theorem conveys_written (h : ∀ f ∈ s, m.Yields f) (rank : Nat) :
    (written m.parameters.length (s, rank)).Conveys rank s m where
  rank_eq := rfl
  features_eq := rfl
  text_render := rfl
  skipped_render := Pattern.skipped_render_eq_nil (fun f hf ↦ (h f hf).exists_read) _
  exists_parse := Pattern.exists_parse_render_of_yields h

/-- **Different fingerprints of a method have different patterns.** -/
theorem nodup_pattern_written (hl : l.Nodup) (h : ∀ s ∈ l, ∀ f ∈ s, m.Yields f) (rank : Nat) :
    (((l.zipIdx rank).map (written m.parameters.length)).map pattern).Nodup := by
  have hpatterns : ((l.zipIdx rank).map (written m.parameters.length)).map pattern =
      l.map fun s ↦ (Pattern.render (some m.parameters.length) s.toList).text := by
    rw [List.map_map, ← List.zipIdx_map_fst rank l, List.map_map, List.zipIdx_map_fst]
    rfl
  rw [hpatterns]
  exact hl.map_on fun s hs t ht heq ↦ Pattern.eq_of_text_render_eq (h s hs) (h t ht) heq

end RankedFingerprint

/-- Without a limit, the limit is the number of fingerprints. -/
theorem Finding.shown_eq_take (f : Finding) (limit : Option Nat) :
    f.shown limit = f.fingerprints.take (limit.getD f.fingerprints.length) := by
  cases limit with
  | none => exact List.take_length.symm
  | some n => rfl

namespace Snapshot

/-- **A report is made of any finding**, as long as the target is in the corpus. -/
theorem report_eq_ok {s : Snapshot} {n : Nat} {target : MethodId}
    (h : s.index.parameterCount target = .ok n) (limit : Option Nat) (f : Finding) :
    s.report target limit f = .ok ⟨target, f.strategy, s.settings, f.complete, f.stats,
      ((f.shown limit).zipIdx 1).map (.written n)⟩ := by
  have hranked (p : Fingerprint × Nat) : s.ranked target p.2 p.1 = pure (.written n p) := by
    rw [ranked, render, h]
    rfl
  rw [report]
  simp only [hranked, List.mapM_pure]
  rfl

/-! ### Findings -/

variable {version : Nat} {methods : List Method} {settings : Settings} {strategy : Strategy}
  {budget : Budget} {clock : Clock} {target : MethodId} {found : Finding}

/-- **What either search finds** are minimal fingerprints, at least one and each once. -/
theorem isMinimal_of_find
    (h : (build version methods settings).find strategy budget clock target = .ok found) :
    found.fingerprints ≠ [] ∧ found.fingerprints.Nodup ∧
      ∀ s ∈ found.fingerprints, (settings.featuresOf methods).IsMinimal target s := by
  have hpresents := Index.presents_build methods settings
  cases strategy with
  | exhaustive =>
    obtain ⟨o, ho, rfl⟩ := map_eq_ok_iff.1 h
    have hanswers := hpresents.answers ho
    exact ⟨hpresents.fingerprints_ne_nil ho, hanswers.sorted.nodup, hanswers.isMinimal⟩
  | greedy =>
    obtain ⟨s, hs, rfl⟩ := map_eq_ok_iff.1 h
    refine ⟨List.cons_ne_nil _ _, List.nodup_singleton s, List.forall_mem_singleton.2 ?_⟩
    exact hpresents.isMinimal_of_greedyFingerprint hs

/-- **The last record of the target** has all tokens of what was found. -/
theorem exists_last_of_find
    (h : (build version methods settings).find strategy budget clock target = .ok found) :
    ∃ m, Method.last? methods target = some m ∧
      ∀ s ∈ found.fingerprints, ∀ f ∈ s, m.Yields f := by
  obtain ⟨hne, -, hmin⟩ := isMinimal_of_find h
  have hlast (s : FeatureSet) (hs : s ∈ found.fingerprints) :
      ∃ m, Method.last? methods target = some m ∧ s ⊆ settings.features m := by
    obtain ⟨u, hu, hsub⟩ := (hmin s hs).1.carries
    obtain ⟨m, hm, rfl⟩ := Option.map_eq_some_iff.1 hu
    exact ⟨m, hm, hsub⟩
  obtain ⟨s, hs⟩ := List.exists_mem_of_ne_nil _ hne
  obtain ⟨m, hm, -⟩ := hlast s hs
  refine ⟨m, hm, fun s hs f hf ↦ ?_⟩
  obtain ⟨m', hm', hsub⟩ := hlast s hs
  obtain rfl := Option.some.inj (hm.symm.trans hm')
  exact Settings.yields_of_mem_features (hsub f hf)

/-- Either search finds something for a target whose features isolate it, if no limit stops it. -/
theorem exists_find_eq_ok (version : Nat) (strategy : Strategy) (clock : Clock)
    {features : FeatureSet} (hv : settings.featuresOf methods target = some features)
    (hi : (settings.featuresOf methods).Isolates target features) :
    ∃ found, (build version methods settings).find strategy .unlimited clock target =
      .ok found := by
  have hpresents := Index.presents_build methods settings
  obtain ⟨t, hok⟩ := Target.exists_ofIndex_eq_ok hpresents hv hi
  cases strategy with
  | exhaustive =>
    rcases hpresents.search_cases hok .unlimited clock rfl with ⟨hcut, -⟩ | ⟨-, o, ho, -⟩
    · exact absurd hcut (Walk.not_isCut_unlimited _ _)
    · exact ⟨_, map_eq_ok_iff.2 ⟨o, ho, rfl⟩⟩
  | greedy =>
    obtain ⟨-, s, hs, -⟩ := hpresents.greedyFingerprint_spec hok
    exact ⟨_, map_eq_ok_iff.2 ⟨s, hs, rfl⟩⟩

/-! ### Reports -/

/-- **From search to pattern.** Whatever a search finds, its report holds the first fingerprints, as
many as the limit admits, ranked from 1 on, each with a pattern that conveys it for the last record
of the target, and no two of the patterns are equal. -/
theorem report_build (version : Nat) (methods : List Method) (settings : Settings)
    (strategy : Strategy) (budget : Budget) (clock : Clock) (target : MethodId)
    (limit : Option Nat) (found : Finding)
    (hfind : (build version methods settings).find strategy budget clock target = .ok found) :
    ∃ m, ∃ r : Report, Method.last? methods target = some m ∧
      (build version methods settings).report target limit found = .ok r ∧
      r.fingerprints.length =
        min (limit.getD found.fingerprints.length) found.fingerprints.length ∧
      (∀ i (e : RankedFingerprint), r.fingerprints[i]? = some e →
        ∃ s, found.fingerprints[i]? = some s ∧
          (build version methods settings).render target s =
            .ok (Pattern.render (some m.parameters.length) s.toList) ∧
          e.Conveys (i + 1) s m) ∧
      (r.fingerprints.map RankedFingerprint.pattern).Nodup := by
  obtain ⟨-, hnodup, -⟩ := isMinimal_of_find hfind
  obtain ⟨m, hm, hyields⟩ := exists_last_of_find hfind
  have hcount : (build version methods settings).index.parameterCount target =
      .ok m.parameters.length := Index.parameterCount_build hm settings
  refine ⟨m, _, hm, report_eq_ok hcount limit found, ?_, fun i e he ↦ ?_, ?_⟩
  · rw [List.length_map, List.length_zipIdx, Finding.shown_eq_take, List.length_take]
  · rw [Finding.shown_eq_take, List.getElem?_map, List.getElem?_zipIdx, Option.map_map,
      Option.map_eq_some_iff] at he
    obtain ⟨s, hs, rfl⟩ := he
    rw [List.getElem?_take] at hs
    split at hs
    · refine ⟨s, hs, ?_, Nat.add_comm 1 i ▸ ?_⟩
      · rw [render, hcount]
        rfl
      · exact RankedFingerprint.conveys_written (hyields s (List.mem_of_getElem? hs)) (1 + i)
    · cases hs
  · rw [Finding.shown_eq_take]
    exact RankedFingerprint.nodup_pattern_written (hnodup.sublist (List.take_sublist _ _))
      (fun s hs ↦ hyields s (List.mem_of_mem_take hs)) 1

/-- Three methods. The last record of the first one has an empty type between the others and a bit
without a flag in its mask. It shares its types with the second method and its mask with the third
one. -/
def reportedMethods : List Method :=
  [⟨"La;", "f", 1, "V", ["IJ"], [], []⟩, ⟨"La;", "g", 1, "V", ["I", "", "J"], [], []⟩,
    ⟨"La;", "h", 0x21201, "V", ["I"], [], []⟩, ⟨"La;", "f", 0x21201, "V", ["I", "", "J"], [], []⟩]

/-- The case of the first method. -/
theorem report_build_reportedMethods :
    ∃ found, (build 0 reportedMethods {}).find .exhaustive .unlimited .still ⟨"La;f(IJ)V"⟩ =
        .ok found ∧
      ∃ m, ∃ r : Report, Method.last? reportedMethods ⟨"La;f(IJ)V"⟩ = some m ∧
        (build 0 reportedMethods {}).report ⟨"La;f(IJ)V"⟩ (some 1) found = .ok r ∧
        r.fingerprints.length = min 1 found.fingerprints.length ∧
        (∀ i (e : RankedFingerprint), r.fingerprints[i]? = some e →
          ∃ s, found.fingerprints[i]? = some s ∧
            (build 0 reportedMethods {}).render ⟨"La;f(IJ)V"⟩ s =
              .ok (Pattern.render (some m.parameters.length) s.toList) ∧
            e.Conveys (i + 1) s m) ∧
        (r.fingerprints.map RankedFingerprint.pattern).Nodup := by
  have hv : Settings.featuresOf {} reportedMethods ⟨"La;f(IJ)V"⟩ = some (.ofList
      [.accessFlags 0x21201, .parameter 0 "I", .parameter 2 "J", .returnType "V"]) := by
    decide +kernel
  obtain ⟨found, hfind⟩ := exists_find_eq_ok 0 .exhaustive .still hv (by decide +kernel)
  exact ⟨found, hfind, report_build 0 reportedMethods {} .exhaustive .unlimited .still
    ⟨"La;f(IJ)V"⟩ (some 1) found hfind⟩

end Snapshot

end MethodFingerprint
