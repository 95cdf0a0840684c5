import Pipework.Store

/-! A small store and a small registry to try things on. -/

namespace Pipework.Sample

def streams : List StoredStream := [
  ⟨"ticktock", "time | log", some "Logs the time every second."⟩,
  ⟨"foo", "time | transform | log", none⟩,
  ⟨"bar", "time | log", none⟩]

def store : Store := .ofList streams

def registrations : List Registration := [
  { name := "http", role := .source,
    description := "Receives HTTP requests. Listens on the configured port.",
    options := [
      { name := "port", description := "The port to listen on.", type := .integer },
      { name := "use.ssl", description := "Whether to serve over TLS.", type := .boolean }] },
  { name := "hdfs", role := .source, description := "Reads files from HDFS." },
  { name := "time", role := .source,
    description := "Emits the current time. Ticks once per second." },
  { name := "filter", role := .processor, description := "Drops messages that do not match.",
    options := [
      { name := "expression", type := .string,
        description := "SpEL expression to evaluate. Messages evaluating to false are dropped." },
      { name := "expresso", description := "Strength of the coffee.", type := .enumeration,
        hints := ["SINGLE", "DOUBLE"] }] },
  { name := "transform", role := .processor, description := "Transforms each payload." },
  { name := "log", role := .sink, description := "Logs each message." },
  { name := "timestamp", role := .task,
    description := "Logs the current time. Exits immediately." },
  { name := "timestamp-batch", role := .task, description := "Logs the time as a batch job." },
  { name := "extract", role := .task, description := "Extracts records." },
  { name := "load", role := .task, description := "Loads records." }]

def registry : Registry := .ofList registrations

end Pipework.Sample
