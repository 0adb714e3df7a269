import ResultCache.Cache.Build
import ResultCache.Cache.Waiting
import ResultCache.Proofs.Cache.Isolation
import ResultCache.Proofs.Cache.Recall
import ResultCache.Proofs.Session.Asked
import ResultCache.Proofs.Session.Once
import ResultCache.Proofs.Session.Canonical
import ResultCache.Proofs.Session.HalfBuilt
import ResultCache.Proofs.Session.Traffic
import ResultCache.Proofs.UnitOfWork
import ResultCache.Session.Nested
import ResultCache.Session.Query
import ResultCache.Source.Tabular
import ResultCache.Value.JsonText
import ResultCache.Proofs.Session.Provenance
import ResultCache.Proofs.Session.QueryKeys
import ResultCache.Proofs.Value.Truncation
import ResultCache.Proofs.Text.Canonical
import ResultCache.Proofs.Session.Diary
import ResultCache.Proofs.Session.Coherence
import ResultCache.Proofs.Session.Protection
import ResultCache.Proofs.Cache.LockingLayer
import ResultCache.Proofs.Session.CleanUp
import ResultCache.Proofs.Key
import ResultCache.Proofs.Cache.Observing
import ResultCache.Proofs.Cache.Releasing
import ResultCache.Proofs.Cache.Crowd
import ResultCache.Proofs.Cache.Contention
import ResultCache.Proofs.Publishing
import ResultCache.Proofs.Session.Shape
import ResultCache.Proofs.Cache.LeastRecent
import ResultCache.Proofs.Session.Handing
import ResultCache.Proofs.Session.HandedRows
import ResultCache.Proofs.Session.Sparing
import ResultCache.Proofs.Session.Outputs
import ResultCache.Proofs.Cache.Dropping
import ResultCache.Proofs.Cache.Queueing
import ResultCache.Proofs.Cache.Ageing
import ResultCache.Proofs.Json.Document
import ResultCache.Proofs.Value.Normalising
import ResultCache.Proofs.Value.JsonReading
