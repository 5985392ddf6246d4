import KVStore.Agreement
import KVStore.Atomicity
import KVStore.Contract
import KVStore.Endpoint
import KVStore.Entries
import KVStore.Explained
import KVStore.Failures
import KVStore.Interval
import KVStore.LockLeak
import KVStore.Malformed
import KVStore.Net
import KVStore.Quoting
import KVStore.Report
import KVStore.Returns
import KVStore.Sessions
import KVStore.UsedServer
import KVStore.Regular
import KVStore.Waiting
